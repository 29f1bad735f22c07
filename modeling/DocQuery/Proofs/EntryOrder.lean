import DocQuery.Proofs.DistinctKeys
import DocQuery.Proofs.PathWalk
import DocQuery.Proofs.QueryRules
import Mathlib.Data.List.Perm.Basic

/-! # The order of entries

Two values that differ only in the order in which entries stand, at any depth, cannot be told apart
by a query: a lookup finds an entry wherever it stands, and an error names keys, kinds and lengths,
which do not depend on the order either. -/

namespace DocQuery

namespace Value

mutual

/-- Two values that differ at most in the order of entries, at any depth. -/
inductive Reordered : Value → Value → Prop where
  | null : Reordered .null .null
  | boolean (b : Bool) : Reordered (.boolean b) (.boolean b)
  | integer (n : Int64) : Reordered (.integer n) (.integer n)
  | float (x : Float) : Reordered (.float x) (.float x)
  | text (s : String) : Reordered (.text s) (.text s)
  | sequence {xs ys : List Value} : ReorderedItems xs ys → Reordered (.sequence xs) (.sequence ys)
  | mapping {xs between ys : List (String × Value)} : ReorderedEntries xs between →
      between.Perm ys → Reordered (.mapping xs) (.mapping ys)

inductive ReorderedItems : List Value → List Value → Prop where
  | nil : ReorderedItems [] []
  | cons {v w : Value} {xs ys : List Value} : Reordered v w → ReorderedItems xs ys →
      ReorderedItems (v :: xs) (w :: ys)

inductive ReorderedEntries : List (String × Value) → List (String × Value) → Prop where
  | nil : ReorderedEntries [] []
  | cons {key : String} {v w : Value} {xs ys : List (String × Value)} : Reordered v w →
      ReorderedEntries xs ys → ReorderedEntries ((key, v) :: xs) ((key, w) :: ys)

end

mutual

theorem Reordered.refl : (v : Value) → Reordered v v
  | .null => .null
  | .boolean b => .boolean b
  | .integer n => .integer n
  | .float x => .float x
  | .text s => .text s
  | .sequence items => .sequence (ReorderedItems.refl items)
  | .mapping entries => .mapping (ReorderedEntries.refl entries) (List.Perm.refl entries)

theorem ReorderedItems.refl : (items : List Value) → ReorderedItems items items
  | [] => .nil
  | v :: rest => .cons (Reordered.refl v) (ReorderedItems.refl rest)

theorem ReorderedEntries.refl : (entries : List (String × Value)) →
    ReorderedEntries entries entries
  | [] => .nil
  | (_, v) :: rest => .cons (Reordered.refl v) (ReorderedEntries.refl rest)

end

theorem Reordered.kind {v w : Value} (h : Reordered v w) : v.kind = w.kind := by
  cases h <;> rfl

theorem Reordered.isNull {v w : Value} (h : Reordered v w) : v.isNull = w.isNull := by
  cases h <;> rfl

theorem Reordered.eq_of_scalar {v w : Value} (h : Reordered v w) (hs : v.kind ≠ .sequence)
    (hm : v.kind ≠ .mapping) : v = w := by
  cases h with
  | sequence _ => exact absurd rfl hs
  | mapping _ _ => exact absurd rfl hm
  | _ => rfl

theorem Reordered.extract {v w : Value} (h : Reordered v w) (t : ValueType) :
    t.extract? v = none ∧ t.extract? w = none ∨
      ∃ a b, t.extract? v = some a ∧ t.extract? w = some b ∧ Reordered a b := by
  by_cases hv : v = w
  · subst hv
    cases ht : t.extract? v with
    | none => exact Or.inl ⟨rfl, rfl⟩
    | some a => exact Or.inr ⟨a, a, rfl, rfl, Reordered.refl a⟩
  · cases h with
    | sequence hitems =>
      cases t with
      | sequence => exact Or.inr ⟨_, _, rfl, rfl, .sequence hitems⟩
      | _ => exact Or.inl ⟨rfl, rfl⟩
    | mapping hentries hperm =>
      cases t with
      | mapping => exact Or.inr ⟨_, _, rfl, rfl, .mapping hentries hperm⟩
      | _ => exact Or.inl ⟨rfl, rfl⟩
    | _ => exact absurd rfl hv

theorem ReorderedItems.length {xs ys : List Value} (h : ReorderedItems xs ys) :
    xs.length = ys.length := by
  induction xs generalizing ys with
  | nil => cases h; rfl
  | cons v xs ih =>
    cases h with
    | cons _ hrest => rw [List.length_cons, List.length_cons, ih hrest]

theorem ReorderedItems.getElem? {xs ys : List Value} (h : ReorderedItems xs ys) (i : Nat) :
    xs[i]? = none ∧ ys[i]? = none ∨
      ∃ v w, xs[i]? = some v ∧ ys[i]? = some w ∧ Reordered v w := by
  induction xs generalizing ys i with
  | nil =>
    cases h
    simp
  | cons v xs ih =>
    cases h with
    | cons hv hrest =>
      cases i with
      | zero => exact Or.inr ⟨v, _, rfl, rfl, hv⟩
      | succ i => simpa using ih hrest i

theorem ReorderedEntries.get? {xs ys : Mapping} (h : ReorderedEntries xs ys) (key : String) :
    Mapping.get? xs key = none ∧ Mapping.get? ys key = none ∨
      ∃ v w, Mapping.get? xs key = some v ∧ Mapping.get? ys key = some w ∧ Reordered v w := by
  induction xs generalizing ys with
  | nil =>
    cases h
    exact Or.inl ⟨rfl, rfl⟩
  | cons entry xs ih =>
    cases h with
    | @cons k v w _ ys hv hrest =>
      by_cases hk : k = key
      · exact Or.inr ⟨v, w, by simp [Mapping.get?, hk], by simp [Mapping.get?, hk], hv⟩
      · simpa [Mapping.get?, hk] using ih hrest

theorem ReorderedEntries.keys {xs ys : Mapping} (h : ReorderedEntries xs ys) :
    Mapping.keys xs = Mapping.keys ys := by
  induction xs generalizing ys with
  | nil =>
    cases h
    rfl
  | cons entry xs ih =>
    cases h with
    | cons _ hrest => simpa [Mapping.keys] using ih hrest

end Value

theorem Mapping.get?_perm {m n : Mapping} (h : m.Perm n) (hkeys : (keys m).Nodup) (key : String) :
    get? m key = get? n key := by
  have hn : (keys n).Nodup := (h.map Prod.fst).nodup_iff.mp hkeys
  cases hm : get? m key with
  | none =>
    rw [get?_none_iff] at hm
    symm
    rw [get?_none_iff]
    exact fun hk => hm ((h.map Prod.fst).mem_iff.mpr hk)
  | some value =>
    have hmem := (get?_some_iff hkeys key value).mp hm
    exact ((get?_some_iff hn key value).mpr (h.mem_iff.mp hmem)).symm

namespace Value

theorem Distinct.of_get {m : Mapping} (h : Distinct (.mapping m)) {key : String} {v : Value}
    (hv : Mapping.get? m key = some v) : v.Distinct := by
  cases h with
  | mapping hkeys hvalues => exact hvalues _ ((Mapping.get?_some_iff hkeys key v).mp hv)

theorem Distinct.of_element {items : List Value} (h : Distinct (.sequence items)) {i : Nat}
    {v : Value} (hv : items[i]? = some v) : v.Distinct := by
  cases h with
  | sequence hitems => exact hitems v (List.mem_of_getElem? hv)

theorem Reordered.get? {m n : Mapping} (h : Reordered (.mapping m) (.mapping n))
    (hm : Distinct (.mapping m)) (key : String) :
    Mapping.get? m key = none ∧ Mapping.get? n key = none ∨
      ∃ v w, Mapping.get? m key = some v ∧ Mapping.get? n key = some w ∧ Reordered v w := by
  cases h with
  | @mapping _ between _ hentries hperm =>
    cases hm with
    | mapping hkeys _ =>
      rw [hentries.keys] at hkeys
      rw [← Mapping.get?_perm hperm hkeys key]
      exact hentries.get? key

end Value

namespace Resolution

open Value (Reordered Distinct)

/-- The same fault, or values that differ at most in the order of entries. The values come from a
value with distinct keys, so they have distinct keys themselves. -/
inductive SameEnd : Except PathFault Value → Except PathFault Value → Prop where
  | failed (fault : PathFault) : SameEnd (.error fault) (.error fault)
  | found {v w : Value} : Reordered v w → v.Distinct → SameEnd (.ok v) (.ok w)

theorem land_reordered (segment : Segment) {v w : Value} (h : Reordered v w) (hv : v.Distinct) :
    SameEnd (land segment v) (land segment w) := by
  rw [land, land, ← h.isNull]
  split
  · exact .failed _
  · exact .found h hv

theorem step_reordered {m n : Mapping} (h : Reordered (.mapping m) (.mapping n))
    (hm : (Value.mapping m).Distinct) (segment : Segment) :
    SameEnd (step m segment) (step n segment) := by
  cases segment with
  | field name =>
    rw [step_field, step_field]
    rcases h.get? hm name with ⟨hx, hy⟩ | ⟨v, w, hx, hy, hvw⟩
    · rw [hx, hy]
      exact .failed _
    · rw [hx, hy]
      exact land_reordered _ hvw (hm.of_get hx)
  | indexed name index =>
    rw [step_indexed, step_indexed]
    rcases h.get? hm name with ⟨hx, hy⟩ | ⟨v, w, hx, hy, hvw⟩
    · rw [hx, hy]
      exact .failed _
    · rw [hx, hy]
      have hv := hm.of_get hx
      cases hvw with
      | @sequence xs ys hitems =>
        rcases hitems.getElem? index.toNat with ⟨hi, hj⟩ | ⟨a, b, hi, hj, hab⟩
        · simp only [hi, hj, hitems.length]
          exact .failed _
        · simp only [hi, hj]
          exact land_reordered _ hab (hv.of_element hi)
      | _ => exact .failed _

theorem walk_reordered {m n : Mapping} (h : Reordered (.mapping m) (.mapping n))
    (hm : (Value.mapping m).Distinct) (segments : List Segment) :
    SameEnd (walk m segments) (walk n segments) := by
  induction segments generalizing m n with
  | nil => exact .failed _
  | cons segment rest ih =>
    have hstep := step_reordered h hm segment
    cases rest with
    | nil => exact hstep
    | cons next rest =>
      rw [walk_cons_cons, walk_cons_cons]
      generalize step m segment = x at hstep ⊢
      generalize step n segment = y at hstep ⊢
      cases hstep with
      | failed fault => exact .failed fault
      | found hvw hv =>
        cases hvw with
        | mapping hentries hperm => exact ih (.mapping hentries hperm) hv
        | _ => exact .failed _

/-- The same error, no value both times, or values that differ at most in the order of entries. -/
inductive SameAnswer : Except Error (Option Value) → Except Error (Option Value) → Prop where
  | failed (e : Error) : SameAnswer (.error e) (.error e)
  | missing : SameAnswer (.ok none) (.ok none)
  | found {v w : Value} : Reordered v w → SameAnswer (.ok (some v)) (.ok (some w))

theorem SameAnswer.refl (r : Except Error (Option Value)) : SameAnswer r r := by
  cases r with
  | error e => exact .failed e
  | ok found =>
    cases found with
    | none => exact .missing
    | some v => exact .found (Reordered.refl v)

theorem SameAnswer.scalar {r s : Except Error (Option Value)} (h : SameAnswer r s) {v : Value}
    (hr : r = .ok (some v)) (hs : v.kind ≠ .sequence) (hm : v.kind ≠ .mapping) :
    s = .ok (some v) := by
  subst hr
  cases h with
  | found hvw => rw [← hvw.eq_of_scalar hs hm]

theorem SameEnd.suppress {x y : Except PathFault Value} (h : SameEnd x y) (o : Options)
    (path : String) :
    SameAnswer (suppress o (x.mapError (.invalidPath (some path))))
      (suppress o (y.mapError (.invalidPath (some path)))) := by
  cases h with
  | failed fault => exact .refl _
  | found hvw _ => exact .found hvw

theorem SameAnswer.answer {r s : Except Error (Option Value)} (h : SameAnswer r s) (path : String)
    (w : Wanted) : SameAnswer (r >>= w.answer path) (s >>= w.answer path) := by
  cases h with
  | failed e => exact .failed e
  | missing => exact .refl _
  | @found a b hab =>
    change SameAnswer (w.answer path (some a)) (w.answer path (some b))
    cases w with
    | value => exact .found hab
    | checked t =>
      rw [Wanted.answer, Wanted.answer, ← hab.kind]
      split
      · exact .found hab
      · exact .failed _
    | content t =>
      rcases hab.extract t with ⟨ha, hb⟩ | ⟨x, y, ha, hb, hxy⟩
      · simp only [Wanted.answer, ha, hb, hab.kind]
        exact .failed _
      · simp only [Wanted.answer, ha, hb]
        exact .found hxy

section

variable {d e : Document} (h : Reordered (.mapping d.root) (.mapping e.root))
  (hd : (Value.mapping d.root).Distinct) (o : Options)

include h hd

theorem resolvePath_reordered (p : Path) : SameAnswer (resolvePath o d p) (resolvePath o e p) := by
  by_cases hp : p.segments = []
  · rw [resolvePath_empty o d hp, resolvePath_empty o e hp]
    exact .refl _
  · rw [resolvePath_walk o d hp, resolvePath_walk o e hp]
    exact (walk_reordered h hd p.segments).suppress o p.source

theorem resolve_reordered (path : String) : SameAnswer (resolve o d path) (resolve o e path) := by
  cases hp : Path.parse path with
  | error fault =>
    rw [resolve_unparsed o d hp, resolve_unparsed o e hp]
    exact .refl _
  | ok p =>
    rw [resolve_parsed o d hp, resolve_parsed o e hp]
    exact resolvePath_reordered h hd o p

theorem run_reordered (q : Query) : SameAnswer (q.run o d) (q.run o e) := by
  by_cases hq : ∃ p, q = ⟨.parsed p, .value⟩
  · obtain ⟨p, rfl⟩ := hq
    exact resolvePath_reordered h hd o p
  · have hq : ∀ p, q ≠ ⟨.parsed p, .value⟩ := fun p hp => hq ⟨p, hp⟩
    cases ht : q.place.text with
    | error fault =>
      rw [Query.run_refused o d ht, Query.run_refused o e ht]
      exact .failed fault
    | ok path =>
      rw [Query.run_text o d ht hq, Query.run_text o e ht hq]
      exact (resolve_reordered h hd o path).answer path q.wanted

end

/-- The order of entries is irrelevant. If the roots of two documents differ only in the order in
which entries stand, at any depth, then every query has the same answer on both: the same error, no
value on either, or values that again differ only in the order of entries, which makes them equal
where they are scalars. -/
theorem entry_order_irrelevant {d e : Document} (hd : (Value.mapping d.root).Distinct)
    (h : Reordered (.mapping d.root) (.mapping e.root)) (o : Options) (q : Query) :
    SameAnswer (q.run o d) (q.run o e) ∧
    ∀ v, q.run o d = .ok (some v) → v.kind ≠ .sequence → v.kind ≠ .mapping →
      q.run o e = .ok (some v) := by
  have hsame := run_reordered h hd o q
  exact ⟨hsame, fun v hv hs hm => hsame.scalar hv hs hm⟩

/-- Two files with the same two hosts; the entries stand in another order at every depth. -/
theorem hosts_swapped :
    let near : Value := .mapping [("port", .integer 587), ("tags", .sequence [.null])]
    let turned : Value := .mapping [("tags", .sequence [.null]), ("port", .integer 587)]
    let d : Document := ⟨"a.yml", [("hosts", .sequence [near]), ("name", .text "x")]⟩
    let e : Document := ⟨"a.yml", [("name", .text "x"), ("hosts", .sequence [turned])]⟩
    (Value.mapping d.root).Distinct ∧ Reordered (.mapping d.root) (.mapping e.root) ∧
    Query.run {} d ⟨.path "hosts[0].port", .content .integer⟩ = .ok (some (.integer 587)) ∧
    Query.run {} e ⟨.path "hosts[0].port", .content .integer⟩ = .ok (some (.integer 587)) := by
  intro near turned d e
  have hnear : near.Distinct := .mapping (by decide) (by
    intro entry he
    simp only [List.mem_cons, List.not_mem_nil, or_false] at he
    rcases he with rfl | rfl
    · exact .integer 587
    · exact .sequence (by simpa using .null))
  have hd : (Value.mapping d.root).Distinct := .mapping (by decide) (by
    intro entry he
    simp only [d, List.mem_cons, List.not_mem_nil, or_false] at he
    rcases he with rfl | rfl
    · exact .sequence (by simpa using hnear)
    · exact .text "x")
  have hturned : Reordered near turned :=
    .mapping (Value.ReorderedEntries.refl _) (List.Perm.swap _ _ _)
  have h : Reordered (.mapping d.root) (.mapping e.root) :=
    .mapping (.cons (.sequence (.cons hturned .nil)) (.cons (.text "x") .nil))
      (List.Perm.swap _ _ _)
  have hhosts : Path.Spells (.indexed "hosts" 0) ("hosts".toList ++ '[' :: (['0'] ++ [']'])) :=
    .indexed (by simp [Path.Plain]) (by simp) (by simp) (by decide)
  have hport : Path.Spells (.field "port") "port".toList := .field (by simp [Path.Plain])
  have hspelled : Path.Spelled [.indexed "hosts" 0, .field "port"] "hosts[0].port".toList :=
    ⟨_, .cons hhosts (.cons hport .nil), by simp [Text.join]⟩
  have hfound : Query.run {} d ⟨.path "hosts[0].port", .content .integer⟩ =
      .ok (some (.integer 587)) := by
    have hresolve := resolve_spelled (o := {}) rfl d (by simp) hspelled (by simp)
    rw [Query.run_read {} d (q := ⟨.path "hosts[0].port", .content .integer⟩) rfl trivial, hresolve]
    rfl
  exact ⟨hd, h, hfound,
    (entry_order_irrelevant hd h {} _).2 _ hfound (by decide) (by decide)⟩

end Resolution

end DocQuery
