import DocQuery.Json.Printer
import DocQuery.Proofs.NumberTexts
import Mathlib.Data.List.Chain

/-! # Tokens of JSON texts

A text that is laid out from tokens, with white space between them or without, is taken apart into
these tokens again. Escapes keep the closing quote of a text apart from the quotes inside it, and a
number ends because only separators stand behind it. -/

namespace DocQuery.Json

/-! ## Escapes -/

theorem isHexDigit_hexDigit {n : Nat} (h : n < 16) : isHexDigit (hexDigit n) = true := by
  interval_cases n <;> rfl

theorem hexDigitValue_hexDigit {n : Nat} (h : n < 16) : hexDigitValue (hexDigit n) = n := by
  interval_cases n <;> rfl

/-- The three ways in which a character stands between quotes. -/
inductive Escaped : Char → List Char → Prop where
  | plain {c : Char} : ¬ c < ' ' → c ≠ '\\' → c ≠ '"' → Escaped c [c]
  | short {c : Char} : isShortEscape c = true → Escaped (unescape c) ['\\', c]
  | hex {c : Char} : c < ' ' →
      Escaped c ['\\', 'u', '0', '0', hexDigit (c.toNat / 16), hexDigit (c.toNat % 16)]

theorem escape_escaped (c : Char) : Escaped c (escape c) := by
  unfold escape
  split
  · exact .short (c := '"') rfl
  · exact .short (c := '\\') rfl
  · exact .short (c := 'b') rfl
  · exact .short (c := 'f') rfl
  · exact .short (c := 'n') rfl
  · exact .short (c := 'r') rfl
  · exact .short (c := 't') rfl
  · next hquote hslash _ _ _ _ _ =>
    split
    · next hlow => exact .hex hlow
    · next hlow => exact .plain hlow hslash hquote

theorem low_bound {c : Char} (h : c < ' ') : c.toNat < 32 := h

theorem closingQuote?_plain {c : Char} (hlow : ¬ c < ' ') (hslash : c ≠ '\\') (hquote : c ≠ '"')
    (rest : List Char) : closingQuote? (c :: rest) = (closingQuote? rest).map (· + 1) := by
  conv_lhs => unfold closingQuote?
  split
  · next h => cases h
  · next h => exact absurd (List.cons.inj h).1 hquote
  · next h => exact absurd (List.cons.inj h).1 hslash
  · next h => exact absurd (List.cons.inj h).1 hslash
  · next h =>
    cases h
    simp [hlow, hslash]

theorem Escaped.closingQuote? {c : Char} {s : List Char} (h : Escaped c s) (rest : List Char) :
    closingQuote? (s ++ rest) = (Json.closingQuote? rest).map (· + s.length) := by
  cases h with
  | plain hlow hslash hquote => exact closingQuote?_plain hlow hslash hquote rest
  | short hc =>
    simp only [isShortEscape, Bool.or_eq_true, beq_iff_eq] at hc
    rcases hc with ((((((rfl | rfl) | rfl) | rfl) | rfl) | rfl) | rfl) | rfl <;> rfl
  | hex hlow =>
    have hbound := low_bound hlow
    have hhigh : isHexDigit (hexDigit (c.toNat / 16)) = true := isHexDigit_hexDigit (by omega)
    have hlast : isHexDigit (hexDigit (c.toNat % 16)) = true := isHexDigit_hexDigit (by omega)
    have hdigits : (isHexDigit '0' && isHexDigit '0' && isHexDigit (hexDigit (c.toNat / 16)) &&
        isHexDigit (hexDigit (c.toNat % 16))) = true := by
      rw [hhigh, hlast]
      rfl
    exact if_pos hdigits

theorem Escaped.units {c : Char} {s : List Char} (h : Escaped c s) (rest : List Char) :
    units (s ++ rest) = .char c :: Json.units rest := by
  cases h with
  | plain hlow hslash hquote => simp [Json.units, hslash]
  | @short d hd =>
    have hu : d ≠ 'u' := by
      rintro rfl
      cases hd
    simp [Json.units, hu]
  | hex hlow =>
    have hbound := low_bound hlow
    have hvalue : hexValue ['0', '0', hexDigit (c.toNat / 16), hexDigit (c.toNat % 16)] =
        c.toNat := by
      have hhigh := hexDigitValue_hexDigit (n := c.toNat / 16) (by omega)
      have hlast := hexDigitValue_hexDigit (n := c.toNat % 16) (by omega)
      have hzero : hexDigitValue '0' = 0 := rfl
      simp only [hexValue, List.foldl_cons, List.foldl_nil, hhigh, hlast, hzero]
      omega
    have hunit : Unit16.ofNat c.toNat = .char c := by
      rw [Unit16.ofNat, if_neg (by omega), Char.ofNat_toNat]
    simp [Json.units, hvalue, hunit]

theorem closingQuote?_encode (s rest : List Char) :
    closingQuote? (encode s ++ '"' :: rest) = some (encode s).length := by
  induction s with
  | nil => rfl
  | cons c s ih =>
    rw [encode, List.flatMap_cons, List.append_assoc, (escape_escaped c).closingQuote?]
    rw [encode] at ih
    rw [ih, List.length_append, Nat.add_comm]
    rfl

theorem decode?_encode (s : List Char) : decode? (encode s) = some (String.ofList s) := by
  have hchars : joinHalves? (units (encode s)) = some s := by
    induction s with
    | nil => rfl
    | cons c s ih =>
      rw [encode, List.flatMap_cons, (escape_escaped c).units, joinHalves?]
      rw [encode] at ih
      rw [ih]
      rfl
  rw [decode?, hchars]
  rfl

/-! ## Numbers -/

def Closed (rest : List Char) : Prop :=
  ∀ c, rest.head? = some c → Number.isNumberChar c = false ∧ c ≠ 'E'

theorem Closed.head {rest : List Char} (h : Closed rest) {c : Char} (hc : rest.head? = some c) :
    c.isDigit = false ∧ c ≠ '.' ∧ c ≠ 'e' ∧ c ≠ 'E' := by
  obtain ⟨hn, hE⟩ := h c hc
  simp only [Number.isNumberChar, Bool.or_eq_false_iff, beq_eq_false_iff_ne] at hn
  obtain ⟨⟨⟨⟨hdigit, hpoint⟩, he⟩, _⟩, _⟩ := hn
  exact ⟨hdigit, hpoint, he, hE⟩

open Number

theorem digitsLength_append {ds rest : List Char} (hd : ∀ c ∈ ds, c.isDigit = true)
    (hrest : ∀ c, rest.head? = some c → c.isDigit = false) :
    digitsLength (ds ++ rest) = ds.length := by
  rw [digitsLength, List.takeWhile_append_of_pos hd]
  cases rest with
  | nil => simp
  | cons c rest => simp [hrest c rfl]

theorem wholeLength?_append {ds rest : List Char} (h : IsWhole ds)
    (hrest : ∀ c, rest.head? = some c → c.isDigit = false) :
    wholeLength? (ds ++ rest) = some ds.length := by
  obtain ⟨⟨hne, hd⟩, hzero⟩ := h
  cases ds with
  | nil => exact absurd rfl hne
  | cons c ds =>
    by_cases hc : c = '0'
    · subst hc
      rw [hzero rfl]
      rfl
    · have hlen := digitsLength_append hd hrest
      simp only [List.cons_append, List.length_cons] at hlen ⊢
      simp [wholeLength?, hc, hlen]

theorem fractionLength?_append {fraction rest : List Char} (h : IsFraction fraction)
    (hrest : ∀ c, rest.head? = some c → c.isDigit = false ∧ c ≠ '.') :
    fractionLength? (fraction ++ rest) = some fraction.length := by
  cases h with
  | none =>
    cases rest with
    | nil => rfl
    | cons c rest => simp [fractionLength?, (hrest c rfl).2]
  | digits hd =>
    have hlen := digitsLength_append hd.2 (fun c hc => (hrest c hc).1)
    have hne := hd.1
    simp [fractionLength?, hlen, hne, Nat.add_comm]

theorem digits_head {ds : List Char} (h : IsDigits ds) (rest : List Char) :
    ∃ c, (ds ++ rest).head? = some c ∧ c.isDigit = true := by
  cases ds with
  | nil => exact absurd rfl h.1
  | cons c ds => exact ⟨c, rfl, h.2 c List.mem_cons_self⟩

theorem exponentLength?_append {exponent rest : List Char} (h : IsExponent exponent)
    (hrest : Closed rest) : exponentLength? (exponent ++ rest) = some exponent.length := by
  cases h with
  | none =>
    cases rest with
    | nil => rfl
    | cons c rest =>
      obtain ⟨_, _, he, hE⟩ := hrest.head rfl
      simp [exponentLength?, he, hE]
  | @digits sign ds hsign hd =>
    have hlen := digitsLength_append hd.2 (fun c hc => (hrest.head hc).1)
    rcases hsign with rfl | rfl | rfl
    · obtain ⟨c, hc, hdigit⟩ := digits_head hd rest
      have hplus : c ≠ '+' := by
        rintro rfl
        cases hdigit
      have hminus : c ≠ '-' := by
        rintro rfl
        cases hdigit
      simp [exponentLength?, hc, hplus, hminus, hlen, hd.1, Nat.add_comm]
    · simp [exponentLength?, hlen, hd.1]
      omega
    · simp [exponentLength?, hlen, hd.1]
      omega

theorem exponent_head {exponent rest : List Char} (h : IsExponent exponent) (hrest : Closed rest)
    {c : Char} (hc : (exponent ++ rest).head? = some c) : c.isDigit = false ∧ c ≠ '.' := by
  cases h with
  | none => exact ⟨(hrest.head hc).1, (hrest.head hc).2.1⟩
  | digits _ _ =>
    cases hc
    exact ⟨rfl, by decide⟩

theorem fraction_head {fraction rest : List Char} (h : IsFraction fraction)
    (hrest : ∀ c, rest.head? = some c → c.isDigit = false) {c : Char}
    (hc : (fraction ++ rest).head? = some c) : c.isDigit = false := by
  cases h with
  | none => exact hrest c hc
  | digits _ =>
    cases hc
    rfl

theorem number_sign {s : List Char} (h : IsNumber s) :
    ∃ front m, s = front ++ m ∧ IsMagnitude m ∧
      ∀ rest, (if (s ++ rest).head? = some '-' then 1 else 0) = front.length := by
  cases h with
  | plain h =>
    obtain ⟨c, rest, rfl, hc⟩ := h.head
    refine ⟨[], _, rfl, h, ?_⟩
    have hminus : c ≠ '-' := by
      rintro rfl
      cases hc
    simp [hminus]
  | @minus m h => exact ⟨['-'], m, rfl, h, by simp⟩

theorem numberLength?_append {s rest : List Char} (h : IsNumber s) (hrest : Closed rest) :
    numberLength? (s ++ rest) = some s.length := by
  obtain ⟨front, m, rfl, hm, hsign⟩ := number_sign h
  cases hm with
  | @mk whole fraction exponent hwhole hfraction hexponent =>
    have hone := wholeLength?_append hwhole
      (fun c hc => fraction_head hfraction (fun d hd => (exponent_head hexponent hrest hd).1) hc)
    have htwo := fractionLength?_append hfraction (fun c hc => exponent_head hexponent hrest hc)
    have hthree := exponentLength?_append hexponent hrest
    rw [numberLength?, hsign rest]
    simp [hone, htwo, hthree, Nat.add_assoc]

/-! ## Texts laid out from tokens -/

/-- The text consists of the tokens in this order, with white space around them. -/
inductive Spaced : List Token → List Char → Prop where
  | nil : Spaced [] []
  | space {ts : List Token} {s : List Char} {c : Char} : isSpace c = true → Spaced ts s →
      Spaced ts (c :: s)
  | token (t : Token) {ts : List Token} {s : List Char} : Spaced ts s →
      Spaced (t :: ts) (t.written ++ s)

def Token.Readable : Token → Prop
  | number s => IsNumber s
  | string s => ∃ text, s = encode text
  | _ => True

def Token.separates : Token → Bool
  | comma | closeArray | closeObject => true
  | _ => false

def Token.Meets : Token → Token → Prop
  | number _, next => next.separates = true
  | _, _ => True

theorem space_cases {c : Char} (h : isSpace c = true) :
    c = ' ' ∨ c = '\t' ∨ c = '\n' ∨ c = '\r' := by
  simpa [isSpace, or_assoc] using h

theorem Spaced.spaces {ts : List Token} {gap s : List Char} (h : ∀ c ∈ gap, isSpace c = true)
    (hs : Spaced ts s) : Spaced ts (gap ++ s) := by
  induction gap with
  | nil => exact hs
  | cons c gap ih =>
    exact .space (h c List.mem_cons_self) (ih fun d hd => h d (List.mem_cons_of_mem _ hd))

theorem Spaced.append_space {ts : List Token} {s : List Char} {c : Char} (h : isSpace c = true)
    (hs : Spaced ts s) : Spaced ts (s ++ [c]) := by
  induction hs with
  | nil => exact .space h .nil
  | space hd _ ih => exact .space hd ih
  | token t _ ih =>
    rw [List.append_assoc]
    exact .token t ih

theorem Spaced.closed {ts : List Token} {s : List Char} (h : Spaced ts s)
    (hts : ∀ t, ts.head? = some t → t.separates = true) : Closed s := by
  induction h with
  | nil =>
    intro c hc
    cases hc
  | space hspace _ _ =>
    intro c hc
    cases hc
    rcases space_cases hspace with rfl | rfl | rfl | rfl <;> exact ⟨rfl, by decide⟩
  | token t _ _ =>
    have ht := hts t rfl
    intro c hc
    cases t <;> cases ht <;> cases hc <;> exact ⟨rfl, by decide⟩

theorem lex_nil : lex [] = some [] := by
  rw [lex]

theorem lex_space {c : Char} (h : isSpace c = true) (rest : List Char) :
    lex (c :: rest) = lex rest := by
  rw [lex, if_pos h]

theorem lex_lexeme {c : Char} {rest s : List Char} {t : Token} (hc : isSpace c = false)
    (h : lexeme? c (rest ++ s) = some (t, rest.length)) :
    lex (c :: rest ++ s) = (lex s).map (t :: ·) := by
  rw [List.cons_append, lex, if_neg (by simp [hc]), h]
  simp

theorem lexeme?_number {c : Char} {rest s : List Char} (h : IsNumber (c :: rest))
    (hs : Closed s) : lexeme? c (rest ++ s) = some (.number (c :: rest), rest.length) := by
  have hlength := numberLength?_append h hs
  have hhead : c.isDigit = true ∨ c = '-' := by
    obtain ⟨d, _, hd, hhead⟩ := h.head
    cases hd
    exact hhead
  unfold lexeme?
  split
  case h_11 =>
    rw [List.cons_append] at hlength
    simp [hlength]
  all_goals exact absurd hhead (by decide)

theorem lex_token {t : Token} (ht : t.Readable) {s : List Char}
    (hs : ∀ n, t = .number n → Closed s) : lex (t.written ++ s) = (lex s).map (t :: ·) := by
  cases t with
  | number n =>
    obtain ⟨c, rest, rfl, hhead⟩ := IsNumber.head ht
    have hspace : isSpace c = false := by
      rcases hhead with hdigit | rfl
      · cases hc : isSpace c with
        | false => rfl
        | true => rcases space_cases hc with rfl | rfl | rfl | rfl <;> cases hdigit
      · rfl
    exact lex_lexeme hspace (lexeme?_number ht (hs _ rfl))
  | string n =>
    obtain ⟨text, rfl⟩ := ht
    have hlexeme : lexeme? '"' ((encode text ++ ['"']) ++ s) =
        some (.string (encode text), (encode text ++ ['"']).length) := by
      simp [lexeme?, closingQuote?_encode]
    exact lex_lexeme rfl hlexeme
  | boolean b => cases b <;> exact lex_lexeme rfl rfl
  | _ => exact lex_lexeme rfl rfl

/-- A text laid out from tokens is taken apart into these tokens. -/
theorem lex_spaced {ts : List Token} {s : List Char} (h : Spaced ts s)
    (hts : ∀ t ∈ ts, t.Readable) (hrow : ts.IsChain Token.Meets) : lex s = some ts := by
  induction h with
  | nil => exact lex_nil
  | space hspace _ ih => rw [lex_space hspace, ih hts hrow]
  | @token t ts s hs ih =>
    have hclosed : ∀ n, t = .number n → Closed s := by
      rintro n rfl
      refine hs.closed ?_
      intro u hu
      exact hrow.rel_head? hu
    rw [lex_token (hts t List.mem_cons_self) hclosed,
      ih (fun u hu => hts u (List.mem_cons_of_mem _ hu)) hrow.tail]
    rfl

theorem packed_spaced (ts : List Token) : Spaced ts (packed ts) := by
  induction ts with
  | nil => exact .nil
  | cons t ts ih => exact .token t ih

theorem gap_spaces (depth : Nat) (before after : Token) :
    ∀ c ∈ gap depth before after, isSpace c = true := by
  have hbreak (n : Nat) : ∀ c ∈ lineBreak n, isSpace c = true := by
    intro c hc
    rcases List.mem_cons.mp hc with rfl | hc
    · rfl
    · rw [List.eq_of_mem_replicate hc]
      rfl
  have hnone : ∀ c ∈ ([] : List Char), isSpace c = true := by simp
  have hblank : ∀ c ∈ [' '], isSpace c = true := by simp [isSpace]
  rw [gap]
  repeat' split
  · exact hnone
  · exact hbreak depth
  · exact hbreak (depth - 1)
  · exact hbreak depth
  · exact hblank
  · exact hnone

theorem spread_spaced (depth : Nat) (ts : List Token) : Spaced ts (spread depth ts) := by
  induction ts generalizing depth with
  | nil => exact .nil
  | cons t ts ih =>
    cases ts with
    | nil => simpa [spread] using Spaced.token t .nil
    | cons u rest =>
      rw [spread, List.append_assoc]
      exact .token t ((ih _).spaces (gap_spaces _ t u))

/-! ## The tokens of a value -/

theorem itemTokens_cons_cons (v w : Value) (rest : List Value) :
    itemTokens (v :: w :: rest) = tokens v ++ .comma :: itemTokens (w :: rest) := by
  simp [itemTokens]

theorem entryTokens_cons_cons (key : String) (v : Value) (w : String × Value)
    (rest : List (String × Value)) :
    entryTokens ((key, v) :: w :: rest) =
      .string (encode key.toList) :: .colon ::
        (tokens v ++ .comma :: entryTokens (w :: rest)) := by
  simp [entryTokens]

theorem floatToken_readable (x : Float) : (floatToken x).Readable := by
  rw [floatToken]
  split
  · next h => exact write_isNumber floatLayout h
  · trivial

mutual

theorem tokens_readable : (v : Value) → ∀ t ∈ tokens v, t.Readable
  | .null => by simp [tokens, Token.Readable]
  | .boolean b => by simp [tokens, Token.Readable]
  | .integer n => by simpa [tokens, Token.Readable] using intNumeral_isNumber n.toInt
  | .float x => by simpa [tokens] using floatToken_readable x
  | .text s => by
    simp only [tokens, List.mem_singleton, forall_eq]
    exact ⟨s.toList, rfl⟩
  | .sequence items => by
    have hitems := itemTokens_readable items
    simpa [tokens, Token.Readable, or_imp, forall_and] using hitems
  | .mapping entries => by
    have hentries := entryTokens_readable entries
    simpa [tokens, Token.Readable, or_imp, forall_and] using hentries

theorem itemTokens_readable : (items : List Value) → ∀ t ∈ itemTokens items, t.Readable
  | [] => by simp [itemTokens]
  | [v] => by simpa [itemTokens] using tokens_readable v
  | v :: w :: rest => by
    have hv := tokens_readable v
    have hrest := itemTokens_readable (w :: rest)
    simp only [itemTokens_cons_cons, List.mem_append, List.mem_cons]
    rintro t (ht | rfl | ht)
    · exact hv t ht
    · trivial
    · exact hrest t ht

theorem entryTokens_readable : (entries : List (String × Value)) →
    ∀ t ∈ entryTokens entries, t.Readable
  | [] => by simp [entryTokens]
  | [(key, v)] => by
    have hv := tokens_readable v
    simp only [entryTokens, List.mem_cons]
    rintro t (rfl | rfl | ht)
    · exact ⟨key.toList, rfl⟩
    · trivial
    · exact hv t ht
  | (key, v) :: w :: rest => by
    have hv := tokens_readable v
    have hrest := entryTokens_readable (w :: rest)
    simp only [entryTokens_cons_cons, List.mem_append, List.mem_cons]
    rintro t (rfl | rfl | ht | rfl | ht)
    · exact ⟨key.toList, rfl⟩
    · trivial
    · exact hv t ht
    · trivial
    · exact hrest t ht

end

theorem Token.meets_separator (t : Token) {next : Token} (h : next.separates = true) :
    t.Meets next := by
  cases t with
  | number _ => exact h
  | _ => trivial

theorem row_cons {t : Token} {ts : List Token} (ht : ∀ next, t.Meets next)
    (h : ts.IsChain Token.Meets) : (t :: ts).IsChain Token.Meets := h.cons fun next _ => ht next

theorem row_append {ts us : List Token} {t : Token} (h : ts.IsChain Token.Meets)
    (ht : t.separates = true) (hus : (t :: us).IsChain Token.Meets) :
    (ts ++ t :: us).IsChain Token.Meets := by
  refine h.append hus ?_
  intro last _ next hnext
  cases hnext
  exact last.meets_separator ht

mutual

theorem tokens_row : (v : Value) → (tokens v).IsChain Token.Meets
  | .null => .singleton _
  | .boolean _ => .singleton _
  | .integer _ => .singleton _
  | .float _ => .singleton _
  | .text _ => .singleton _
  | .sequence items =>
    row_cons (fun _ => trivial) (row_append (itemTokens_row items) rfl (.singleton _))
  | .mapping entries =>
    row_cons (fun _ => trivial) (row_append (entryTokens_row entries) rfl (.singleton _))

theorem itemTokens_row : (items : List Value) → (itemTokens items).IsChain Token.Meets
  | [] => .nil
  | [v] => tokens_row v
  | v :: w :: rest => by
    rw [itemTokens_cons_cons]
    exact row_append (tokens_row v) rfl (row_cons (fun _ => trivial) (itemTokens_row (w :: rest)))

theorem entryTokens_row : (entries : List (String × Value)) →
    (entryTokens entries).IsChain Token.Meets
  | [] => .nil
  | [(_, v)] => row_cons (fun _ => trivial) (row_cons (fun _ => trivial) (tokens_row v))
  | (key, v) :: w :: rest => by
    have hrest := row_cons (t := .comma) (fun _ => trivial) (entryTokens_row (w :: rest))
    rw [entryTokens_cons_cons]
    exact row_cons (fun _ => trivial)
      (row_cons (fun _ => trivial) (row_append (tokens_row v) rfl hrest))

end

/-- Both texts consist of the same tokens and differ only in the white space around them. -/
def Respaced (s t : String) : Prop :=
  ∃ ts, Spaced ts s.toList ∧ Spaced ts t.toList ∧ lex s.toList = some ts ∧ lex t.toList = some ts

theorem json_spaced (v : Value) : Spaced (tokens v) v.json.toList := by
  simpa [Value.json] using packed_spaced (tokens v)

theorem pretty_spaced (v : Value) : Spaced (tokens v) v.pretty.toList := by
  simpa [Value.pretty] using spread_spaced 0 (tokens v)

theorem lex_value {v : Value} {s : List Char} (h : Spaced (tokens v) s) :
    lex s = some (tokens v) := lex_spaced h (tokens_readable v) (tokens_row v)

end DocQuery.Json
