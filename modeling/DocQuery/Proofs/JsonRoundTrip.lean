import DocQuery.Proofs.EntryOrder
import DocQuery.Proofs.JsonTokens

/-! # JSON texts read back

The JSON text of a mapping without floats, compact or pretty, is read as the same mapping up to the
order of entries. On the way, the tokens give the syntax tree of the value, text and integers are
read from their spellings, and sorting the members of an object only changes their order. -/

namespace DocQuery.Json

/-! ## The syntax tree of a value -/

mutual

def node : Value → Node
  | .null => .null
  | .boolean b => .boolean b
  | .integer n => .number (Number.intNumeral n.toInt)
  | .float x => if x.isFinite then .number (floatLayout.write x) else .null
  | .text s => .string (encode s.toList)
  | .sequence items => .array (itemNodes items)
  | .mapping entries => .object (entryNodes entries)

def itemNodes : List Value → List Node
  | [] => []
  | v :: rest => node v :: itemNodes rest

def entryNodes : List (String × Value) → List (List Char × Node)
  | [] => []
  | (key, v) :: rest => (encode key.toList, node v) :: entryNodes rest

end

namespace Reading

theorem run_cons {r next : Reading} {t : Token} (h : step? r t = some next) (ts : List Token) :
    run? r (t :: ts) = run? next ts := by
  simp [run?, h]

end Reading

theorem tokens_head (v : Value) : ∃ t ts, tokens v = t :: ts ∧ t ≠ .closeArray := by
  cases v with
  | float x =>
    refine ⟨floatToken x, [], rfl, ?_⟩
    rw [floatToken]
    split <;> exact Token.noConfusion
  | _ => exact ⟨_, _, rfl, Token.noConfusion⟩

namespace Reading

theorem run_firstItem {items : List Value} (h : items ≠ []) (stack : List Frame)
    (rest : List Token) :
    run? (firstItem stack) (itemTokens items ++ rest) =
      run? (value (.array [] :: stack)) (itemTokens items ++ rest) := by
  have hhead : ∃ t ts, itemTokens items = t :: ts ∧ t ≠ .closeArray := by
    match items, h with
    | [v], _ => exact tokens_head v
    | v :: w :: items, _ =>
      obtain ⟨t, ts, hv, ht⟩ := tokens_head v
      exact ⟨t, _, by rw [itemTokens_cons_cons, hv, List.cons_append], ht⟩
  obtain ⟨t, ts, hitems, ht⟩ := hhead
  have hstep : step? (firstItem stack) t = step? (value (.array [] :: stack)) t := by
    cases t with
    | closeArray => exact absurd rfl ht
    | _ => rfl
  simp [hitems, run?, hstep]

theorem run_firstKey {entries : List (String × Value)} (h : entries ≠ []) (stack : List Frame)
    (rest : List Token) :
    run? (firstKey stack) (entryTokens entries ++ rest) =
      run? (key [] stack) (entryTokens entries ++ rest) := by
  match entries, h with
  | [_], _ => rfl
  | (k, v) :: w :: entries, _ =>
    rw [entryTokens_cons_cons]
    rfl

mutual

theorem run_tokens : (v : Value) → (stack : List Frame) → (rest : List Token) →
    run? (value stack) (tokens v ++ rest) = run? (complete (node v) stack) rest
  | .null, _, _ => rfl
  | .boolean _, _, _ => rfl
  | .integer _, _, _ => rfl
  | .float x, stack, rest => by
    rw [tokens, floatToken, node]
    split <;> rfl
  | .text _, _, _ => rfl
  | .sequence items, stack, rest => by
    rw [tokens, List.cons_append, run_cons rfl, List.append_assoc]
    by_cases h : items = []
    · subst h
      rfl
    · rw [run_firstItem h]
      exact run_items items h [] stack rest
  | .mapping entries, stack, rest => by
    rw [tokens, List.cons_append, run_cons rfl, List.append_assoc]
    by_cases h : entries = []
    · subst h
      rfl
    · rw [run_firstKey h]
      exact run_entries entries h [] stack rest

theorem run_items : (items : List Value) → items ≠ [] → (done : List Node) →
    (stack : List Frame) → (rest : List Token) →
    run? (value (.array done :: stack)) (itemTokens items ++ .closeArray :: rest) =
      run? (complete (.array (done.reverse ++ itemNodes items)) stack) rest
  | [], h, _, _, _ => absurd rfl h
  | [v], _, done, stack, rest => by
    rw [itemTokens, run_tokens v, run_cons rfl]
    simp [itemNodes]
  | v :: w :: items, _, done, stack, rest => by
    rw [itemTokens_cons_cons, List.append_assoc, run_tokens v, List.cons_append, run_cons rfl,
      run_items (w :: items) (List.cons_ne_nil w items)]
    simp [itemNodes]

theorem run_entries : (entries : List (String × Value)) → entries ≠ [] →
    (done : List (List Char × Node)) → (stack : List Frame) → (rest : List Token) →
    run? (key done stack) (entryTokens entries ++ .closeObject :: rest) =
      run? (complete (.object (done.reverse ++ entryNodes entries)) stack) rest
  | [], h, _, _, _ => absurd rfl h
  | [(k, v)], _, done, stack, rest => by
    rw [entryTokens, List.cons_append, run_cons rfl, List.cons_append, run_cons rfl, run_tokens v,
      run_cons rfl]
    simp [entryNodes]
  | (k, v) :: w :: entries, _, done, stack, rest => by
    rw [entryTokens_cons_cons, List.cons_append, run_cons rfl, List.cons_append, run_cons rfl,
      List.append_assoc, run_tokens v, List.cons_append, run_cons rfl,
      run_entries (w :: entries) (List.cons_ne_nil w entries)]
    simp [entryNodes]

end

end Reading

theorem ofTokens?_tokens (v : Value) : Node.ofTokens? (tokens v) = some (node v) := by
  have hrun := Reading.run_tokens v [] []
  rw [List.append_nil] at hrun
  rw [Node.ofTokens?, hrun]
  rfl

theorem Node.read?_spaced {v : Value} {s : List Char} (h : Spaced (tokens v) s) :
    Node.read? s = some (node v) := by
  rw [Node.read?, lex_value h]
  exact ofTokens?_tokens v

end Json

namespace Value

mutual

def depth : Value → Nat
  | sequence items => depthItems items + 1
  | mapping entries => depthEntries entries + 1
  | _ => 0

def depthItems : List Value → Nat
  | [] => 0
  | v :: rest => max (depth v) (depthItems rest)

def depthEntries : List (String × Value) → Nat
  | [] => 0
  | (_, v) :: rest => max (depth v) (depthEntries rest)

end

inductive FloatFree : Value → Prop where
  | null : FloatFree .null
  | boolean (b : Bool) : FloatFree (.boolean b)
  | integer (n : Int64) : FloatFree (.integer n)
  | text (s : String) : FloatFree (.text s)
  | sequence {items : List Value} : (∀ v ∈ items, FloatFree v) → FloatFree (.sequence items)
  | mapping {entries : List (String × Value)} : (∀ entry ∈ entries, FloatFree entry.2) →
      FloatFree (.mapping entries)

end Value

namespace Json

mutual

theorem node_depth : (v : Value) → (node v).depth = v.depth
  | .null => rfl
  | .boolean _ => rfl
  | .integer _ => rfl
  | .float _ => by
    rw [node]
    split <;> rfl
  | .text _ => rfl
  | .sequence items => by rw [node, Node.depth, Value.depth, itemNodes_depth items]
  | .mapping entries => by rw [node, Node.depth, Value.depth, entryNodes_depth entries]

theorem itemNodes_depth : (items : List Value) →
    Node.depthItems (itemNodes items) = Value.depthItems items
  | [] => rfl
  | v :: rest => by
    rw [itemNodes, Node.depthItems, Value.depthItems, node_depth v, itemNodes_depth rest]

theorem entryNodes_depth : (entries : List (String × Value)) →
    Node.depthMembers (entryNodes entries) = Value.depthEntries entries
  | [] => rfl
  | (_, v) :: rest => by
    rw [entryNodes, Node.depthMembers, Value.depthEntries, node_depth v, entryNodes_depth rest]

end

/-! ## Integers -/

open Number

theorem digitsValue_mono (ds : List Char) (n : Nat) :
    n ≤ ds.foldl (fun n c => 10 * n + digitValue c) n := by
  induction ds generalizing n with
  | nil => exact le_refl n
  | cons c ds ih => exact le_trans (by omega) (ih (10 * n + digitValue c))

theorem absorb_all {ds : List Char} {n : Nat}
    (h : ds.foldl (fun n c => 10 * n + digitValue c) n < UInt64.size) :
    absorb n ds = (ds.foldl (fun n c => 10 * n + digitValue c) n, []) := by
  induction ds generalizing n with
  | nil => rfl
  | cons c ds ih =>
    rw [List.foldl_cons] at h
    have hnext : 10 * n + digitValue c < UInt64.size := lt_of_le_of_lt (digitsValue_mono ds _) h
    rw [absorb, if_pos hnext, ih h, List.foldl_cons]

theorem absorb_numeral {n : Nat} (h : n < UInt64.size) : absorb 0 (numeral n) = (n, []) := by
  have hvalue : (numeral n).foldl (fun n c => 10 * n + digitValue c) 0 = n := digitsValue_numeral n
  rw [absorb_all (by rw [hvalue]; exact h), hvalue]

theorem spelling_whole (negative : Bool) (n : Nat) :
    Spelling.of ((if negative then ['-'] else []) ++ numeral n) =
      { negative, whole := numeral n, fraction := [], exponent := none } := by
  have htake : (numeral n).takeWhile Char.isDigit = numeral n :=
    List.takeWhile_eq_self_iff.mpr (numeral_digits n)
  have hdrop : (numeral n).dropWhile Char.isDigit = [] :=
    List.dropWhile_eq_nil_iff.mpr (numeral_digits n)
  cases negative with
  | true => simp [Spelling.of, htake, hdrop]
  | false =>
    have hhead : (numeral n).head? ≠ some '-' := by
      intro h
      cases numeral_digits n '-' (List.mem_of_mem_head? h)
    simp [Spelling.of, hhead, htake, hdrop]

theorem numeric?_natural {n : Nat} (h : n < UInt64.size) :
    numeric? (numeral n) = some (.natural (UInt64.ofNat n)) := by
  have hspelling := spelling_whole false n
  rw [if_neg (by decide), List.nil_append] at hspelling
  rw [numeric?, hspelling]
  simp [Spelling.numeric?, absorb_numeral h]

theorem numeric?_negative {n : Nat} (h : 0 < n) (hbound : n ≤ Numeric.signedBound) :
    numeric? ('-' :: numeral n) = some (.negative (Int64.ofInt (-n))) := by
  have hsize : Numeric.signedBound < UInt64.size := by decide
  have hspelling := spelling_whole true n
  rw [if_pos rfl, List.singleton_append] at hspelling
  rw [numeric?, hspelling]
  simp [Spelling.numeric?, absorb_numeral (lt_of_le_of_lt hbound hsize), h, hbound]

theorem numeric?_intNumeral (n : Int64) :
    ∃ k, numeric? (intNumeral n.toInt) = some k ∧ k.toValue = .integer n := by
  have hlow : -(Numeric.signedBound : Int) ≤ n.toInt := n.le_toInt
  have hhigh : n.toInt < Numeric.signedBound := n.toInt_lt
  have hsize : Numeric.signedBound < UInt64.size := by decide
  rw [intNumeral]
  by_cases hneg : n.toInt < 0
  · have habs : -(n.toInt.natAbs : Int) = n.toInt := by omega
    rw [if_pos hneg, numeric?_negative (by omega) (by omega), habs, Int64.ofInt_toInt]
    exact ⟨_, rfl, rfl⟩
  · have habs : (n.toInt.natAbs : Int) = n.toInt := by omega
    have hnat : (UInt64.ofNat n.toInt.natAbs).toNat = n.toInt.natAbs :=
      UInt64.toNat_ofNat_of_lt' (by omega)
    rw [if_neg hneg, numeric?_natural (by omega)]
    refine ⟨_, rfl, ?_⟩
    rw [Numeric.toValue, hnat, if_pos (by omega), ← Int64.ofInt_eq_ofNat, habs, Int64.ofInt_toInt]

/-! ## The tree of a value -/

open Value (Reordered ReorderedItems ReorderedEntries)

theorem insertSorted_perm {members : List (String × Tree)} {key : String}
    (h : key ∉ members.map Prod.fst) (tree : Tree) :
    (insertSorted members key tree).Perm (members ++ [(key, tree)]) := by
  induction members with
  | nil => exact List.Perm.refl _
  | cons member rest ih =>
    obtain ⟨k, t⟩ := member
    rw [List.map_cons, List.mem_cons, not_or] at h
    rw [insertSorted]
    split
    · exact (List.perm_append_singleton _ _).symm
    · rw [if_neg h.1]
      exact (ih h.2).cons _

theorem toEntries_eq_map (members : List (String × Tree)) :
    Tree.toEntries members = members.map fun member => (member.1, member.2.toValue) := by
  induction members with
  | nil => rfl
  | cons member rest ih =>
    rw [Tree.toEntries, ih]
    rfl

theorem toEntries_keys (members : List (String × Tree)) :
    Mapping.keys (Tree.toEntries members) = members.map Prod.fst := by
  rw [toEntries_eq_map, Mapping.keys, List.map_map]
  rfl

mutual

theorem node_tree : (v : Value) → v.FloatFree → v.Distinct →
    ∃ t, (node v).tree? = some t ∧ Reordered v t.toValue
  | .null, _, _ => ⟨.null, rfl, .null⟩
  | .boolean b, _, _ => ⟨.boolean b, rfl, .boolean b⟩
  | .integer n, _, _ => by
    obtain ⟨k, hk, hvalue⟩ := numeric?_intNumeral n
    refine ⟨.number k, by rw [node, Node.tree?, hk]; rfl, ?_⟩
    rw [Tree.toValue, hvalue]
    exact .integer n
  | .float _, h, _ => nomatch h
  | .text s, _, _ => by
    refine ⟨.text s, ?_, .text s⟩
    rw [node, Node.tree?, decode?_encode, String.ofList_toList]
    rfl
  | .sequence items, hfloat, hdistinct => by
    cases hfloat with
    | sequence hfloat =>
      cases hdistinct with
      | sequence hdistinct =>
        obtain ⟨ts, hts, hitems⟩ := itemNodes_trees items hfloat hdistinct
        exact ⟨.array ts, by rw [node, Node.tree?, hts]; rfl, .sequence hitems⟩
  | .mapping entries, hfloat, hdistinct => by
    cases hfloat with
    | mapping hfloat =>
      cases hdistinct with
      | mapping hkeys hdistinct =>
        obtain ⟨read, members, hmembers, hperm, hentries⟩ :=
          entryNodes_members entries hfloat hdistinct [] hkeys
        refine ⟨.object members, by rw [node, Node.tree?, hmembers]; rfl, ?_⟩
        rw [hentries.keys, toEntries_keys] at hkeys
        have hnodup : (Mapping.keys (Tree.toEntries members)).Nodup := by
          rw [toEntries_keys]
          exact (hperm.map Prod.fst).nodup_iff.mpr hkeys
        rw [Tree.toValue, Mapping.ofEntries_of_nodup hnodup]
        refine .mapping hentries ?_
        rw [toEntries_eq_map, toEntries_eq_map]
        exact (hperm.map _).symm

theorem itemNodes_trees : (items : List Value) → (∀ v ∈ items, v.FloatFree) →
    (∀ v ∈ items, v.Distinct) →
    ∃ ts, Node.trees? (itemNodes items) = some ts ∧ ReorderedItems items (Tree.toValues ts)
  | [], _, _ => ⟨[], rfl, .nil⟩
  | v :: rest, hfloat, hdistinct => by
    rw [List.forall_mem_cons] at hfloat hdistinct
    obtain ⟨t, ht, hv⟩ := node_tree v hfloat.1 hdistinct.1
    obtain ⟨ts, hts, hrest⟩ := itemNodes_trees rest hfloat.2 hdistinct.2
    exact ⟨t :: ts, by rw [itemNodes, Node.trees?, ht, hts]; rfl, .cons hv hrest⟩

/-- The members `read` are those of the entries; they end up among the members before them. -/
theorem entryNodes_members : (entries : List (String × Value)) →
    (∀ entry ∈ entries, entry.2.FloatFree) → (∀ entry ∈ entries, entry.2.Distinct) →
    (done : List (String × Tree)) → (done.map Prod.fst ++ Mapping.keys entries).Nodup →
    ∃ read members, Node.members? done (entryNodes entries) = some members ∧
      members.Perm (done ++ read) ∧ ReorderedEntries entries (Tree.toEntries read)
  | [], _, _, done, _ => ⟨[], done, rfl, by simp, .nil⟩
  | (key, v) :: rest, hfloat, hdistinct, done, hkeys => by
    rw [List.forall_mem_cons] at hfloat hdistinct
    obtain ⟨t, ht, hv⟩ := node_tree v hfloat.1 hdistinct.1
    have hnew : key ∉ done.map Prod.fst := by
      intro hm
      exact (List.nodup_append.mp hkeys).2.2 key hm key List.mem_cons_self rfl
    have hsorted := insertSorted_perm hnew t
    have hnext : ((insertSorted done key t).map Prod.fst ++ Mapping.keys rest).Nodup := by
      have hperm := ((hsorted.map Prod.fst).append_right (Mapping.keys rest)).nodup_iff
      rw [hperm]
      simpa [Mapping.keys] using hkeys
    obtain ⟨read, members, hmembers, hperm, hrest⟩ :=
      entryNodes_members rest hfloat.2 hdistinct.2 (insertSorted done key t) hnext
    refine ⟨(key, t) :: read, members, ?_, ?_, .cons hv hrest⟩
    · rw [entryNodes, Node.members?, decode?_encode, String.ofList_toList, ht]
      exact hmembers
    · have happend := hperm.trans (hsorted.append_right read)
      simpa using happend

end

theorem read?_spaced {v : Value} {text : String} (h : Spaced (tokens v) text.toList)
    (hfloat : v.FloatFree) (hdistinct : v.Distinct) (hdepth : v.depth ≤ depthBound) :
    ∃ t, Tree.read? text = some t ∧ Reordered v t.toValue := by
  obtain ⟨t, ht, hv⟩ := node_tree v hfloat hdistinct
  refine ⟨t, ?_, hv⟩
  rw [Tree.read?, Node.read?_spaced h]
  dsimp only
  rw [node_depth, if_pos hdepth, ht]

end Json

namespace Document

open Value (Reordered)

theorem ofJson_spaced {m : Mapping} {text : String}
    (h : Json.Spaced (Json.tokens (.mapping m)) text.toList)
    (hfloat : (Value.mapping m).FloatFree) (hdistinct : (Value.mapping m).Distinct)
    (hdepth : (Value.mapping m).depth ≤ 127) :
    ∃ root, ofJson text = .ok ⟨"", root⟩ ∧ Reordered (.mapping m) (.mapping root) := by
  obtain ⟨t, ht, hv⟩ := Json.read?_spaced h hfloat hdistinct hdepth
  generalize hvalue : t.toValue = v at hv
  cases hv with
  | @mapping _ _ root hentries hperm =>
    refine ⟨root, ?_, .mapping hentries hperm⟩
    rw [ofJson, ht]
    dsimp only
    rw [hvalue]
    rfl

/-- JSON output reads back. A mapping with distinct keys that contains no float and nests at most
127 levels deep is read from its JSON text, compact or pretty, as the root of a document that
differs from it at most in the order of entries: every null, boolean, integer and text, and the
items of every sequence, are the same at the same place. -/
theorem json_reads_back {m : Mapping} (hdistinct : (Value.mapping m).Distinct)
    (hfloat : (Value.mapping m).FloatFree) (hdepth : (Value.mapping m).depth ≤ 127) :
    (∃ root, ofJson (Value.mapping m).json = .ok ⟨"", root⟩ ∧
      Reordered (.mapping m) (.mapping root)) ∧
    ∃ root, ofJson (Value.mapping m).pretty = .ok ⟨"", root⟩ ∧
      Reordered (.mapping m) (.mapping root) := by
  constructor
  · exact ofJson_spaced (Json.json_spaced _) hfloat hdistinct hdepth
  · exact ofJson_spaced (Json.pretty_spaced _) hfloat hdistinct hdepth

/-- The least integer, an empty sequence and an empty mapping, and text that needs escapes. -/
theorem edge_values_read_back :
    let m : Mapping :=
      [("z", .sequence [.integer (-9223372036854775808), .sequence [], .mapping []]),
        ("a\"", .text "\x00\\\n")]
    (Value.mapping m).Distinct ∧ (Value.mapping m).FloatFree ∧ (Value.mapping m).depth ≤ 127 ∧
    ∃ root, ofJson (Value.mapping m).json = .ok ⟨"", root⟩ ∧
      Reordered (.mapping m) (.mapping root) := by
  intro m
  have hdistinct : (Value.mapping m).Distinct := by
    refine .mapping (by decide) ?_
    simp only [m, List.forall_mem_cons]
    refine ⟨.sequence ?_, .text _, by simp⟩
    simp only [List.forall_mem_cons]
    exact ⟨.integer _, .sequence (by simp), Value.distinct_nil, by simp⟩
  have hfloat : (Value.mapping m).FloatFree := by
    refine .mapping ?_
    simp only [m, List.forall_mem_cons]
    refine ⟨.sequence ?_, .text _, by simp⟩
    simp only [List.forall_mem_cons]
    exact ⟨.integer _, .sequence (by simp), .mapping (by simp), by simp⟩
  have hdepth : (Value.mapping m).depth ≤ 127 := by decide
  exact ⟨hdistinct, hfloat, hdepth, (json_reads_back hdistinct hfloat hdepth).1⟩

end Document

end DocQuery
