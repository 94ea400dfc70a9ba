import IndexControl.OrderedMap
import Mathlib.Data.List.Nodup

/-!
# Finite maps by look-up

A finite map is determined by its look-ups, and each update is determined by what it does to
them. After this module a map is hardly ever opened into its entries again.

## Main results

* `OrderedMap.mem_entries_iff`: the entries are the look-ups that succeed.
* `OrderedMap.ext_find?`: two maps with the same look-ups are equal.
* `OrderedMap.find?_insert`, `OrderedMap.find?_erase`, `OrderedMap.find?_modify`,
  `OrderedMap.find?_filterMap`: the updates.
* `OrderedMap.contains_insert`, `OrderedMap.contains_erase`, `OrderedMap.contains_modify`: what
  they do to the keys.
* `OrderedMap.mem_keys_iff`, `OrderedMap.nodup_keys`: the list of keys.
-/

namespace IndexControl.OrderedMap

variable {κ α β : Type}

/-- Pairs that are listed under different keys are different. -/
theorem nodup_map_mk {l : List β} {key : β → κ} {value : β → α} (h : (l.map key).Nodup) :
    (l.map fun b => (key b, value b)).Nodup := by
  refine List.Nodup.of_map Prod.fst ?_
  rw [List.map_map]
  exact h

variable [Ord κ]

/-! ### Entries and look-ups -/

@[simp]
theorem find?_empty (k : κ) : (empty : OrderedMap κ α).find? k = none := rfl

theorem contains_iff {m : OrderedMap κ α} {k : κ} :
    m.contains k = true ↔ ∃ v, m.find? k = some v := by
  rw [contains, Option.isSome_iff_exists]

theorem contains_eq_false_iff {m : OrderedMap κ α} {k : κ} :
    m.contains k = false ↔ m.find? k = none := by
  rw [contains, Option.isSome_eq_false_iff, Option.isNone_iff_eq_none]

theorem pairwise_keys (m : OrderedMap κ α) : m.keys.Pairwise fun a b => compare a b = .lt :=
  List.pairwise_map.2 m.ordered

variable [Std.LawfulEqOrd κ]

private theorem ne_of_compare_lt {a b : κ} (h : compare a b = .lt) : a ≠ b := by
  rintro rfl
  rw [Std.ReflOrd.compare_self] at h
  exact Ordering.noConfusion h

private theorem find?_entries_eq_some_iff {k : κ} {v : α} {l : List (κ × α)}
    (h : l.Pairwise fun a b => compare a.1 b.1 = .lt) :
    (l.find? fun e => compare k e.1 == .eq).map (·.2) = some v ↔ (k, v) ∈ l := by
  induction l with
  | nil => simp
  | cons e l ih =>
    obtain ⟨k', v'⟩ := e
    obtain ⟨hhd, htl⟩ := List.pairwise_cons.1 h
    by_cases hk : k = k'
    · subst hk
      have hout : (k, v) ∉ l := fun hmem => ne_of_compare_lt (hhd (k, v) hmem) rfl
      simp [Std.ReflOrd.compare_self, hout, eq_comm]
    · have hne : (compare k k' == .eq) = false := by
        simpa [Std.LawfulEqCmp.compare_eq_iff_eq] using hk
      rw [List.find?_cons, hne]
      simpa [hk] using ih htl

/-- The entries are the look-ups that succeed. -/
theorem mem_entries_iff {m : OrderedMap κ α} {k : κ} {v : α} :
    (k, v) ∈ m.entries ↔ m.find? k = some v :=
  (find?_entries_eq_some_iff m.ordered).symm

/-- A look-up is settled by the entries under its key. -/
private theorem find?_eq_of_entries {m : OrderedMap κ α} {k : κ} {o : Option α}
    (h : ∀ v, (k, v) ∈ m.entries ↔ o = some v) : m.find? k = o := by
  ext v
  exact mem_entries_iff.symm.trans (h v)

theorem mem_keys_iff {m : OrderedMap κ α} {k : κ} : k ∈ m.keys ↔ ∃ v, m.find? k = some v := by
  simp only [keys, List.mem_map, Prod.exists, mem_entries_iff]
  constructor
  · rintro ⟨k', v, hfind, rfl⟩
    exact ⟨v, hfind⟩
  · rintro ⟨v, hfind⟩
    exact ⟨k, v, hfind, rfl⟩

/-- No key is listed twice. -/
theorem nodup_keys (m : OrderedMap κ α) : m.keys.Nodup :=
  m.pairwise_keys.imp ne_of_compare_lt

theorem nodup_entries (m : OrderedMap κ α) : m.entries.Nodup :=
  List.Nodup.of_map Prod.fst m.nodup_keys

/-! ### Updates -/

theorem find?_filterMap (f : κ → α → Option β) (m : OrderedMap κ α) (k : κ) :
    (m.filterMap f).find? k = (m.find? k).bind (f k) := by
  refine find?_eq_of_entries fun w => ?_
  simp only [filterMap, List.mem_filterMap, Option.map_eq_some_iff, Option.bind_eq_some_iff,
    Prod.exists, Prod.mk.injEq]
  constructor
  · rintro ⟨k', v, hmem, w', hf, rfl, rfl⟩
    exact ⟨v, mem_entries_iff.1 hmem, hf⟩
  · rintro ⟨v, hfind, hf⟩
    exact ⟨k, v, mem_entries_iff.2 hfind, w, hf, rfl, rfl⟩

theorem find?_filter (p : κ → α → Bool) (m : OrderedMap κ α) (k : κ) :
    (m.filter p).find? k = (m.find? k).filter (p k) := by
  rw [filter, find?_filterMap]
  cases m.find? k <;> rfl

theorem find?_erase [DecidableEq κ] (m : OrderedMap κ α) (k k' : κ) :
    (m.erase k).find? k' = if k' = k then none else m.find? k' := by
  rw [erase, find?_filter]
  by_cases h : k' = k
  · subst h
    cases m.find? k' <;> simp [Option.filter, Std.ReflOrd.compare_self]
  · have hne : compare k k' ≠ .eq := fun hc => h (Std.LawfulEqCmp.eq_of_compare hc).symm
    cases m.find? k' <;> simp [Option.filter, h, hne]

theorem find?_modify [DecidableEq κ] (m : OrderedMap κ α) (k k' : κ) (f : α → α) :
    (m.modify k f).find? k' = if k' = k then (m.find? k').map f else m.find? k' := by
  rw [modify, find?_filterMap]
  by_cases h : k' = k
  · subst h
    cases m.find? k' <;> simp [Std.ReflOrd.compare_self]
  · have hne : compare k k' ≠ .eq := fun hc => h (Std.LawfulEqCmp.eq_of_compare hc).symm
    cases m.find? k' <;> simp [h, hne]

theorem contains_erase [DecidableEq κ] {m : OrderedMap κ α} {k k' : κ} :
    (m.erase k).contains k' = true ↔ m.contains k' = true ∧ k' ≠ k := by
  rw [contains, contains, find?_erase]
  by_cases h : k' = k <;> simp [h]

theorem contains_modify [DecidableEq κ] (m : OrderedMap κ α) (k k' : κ) (f : α → α) :
    (m.modify k f).contains k' = m.contains k' := by
  rw [contains, contains, find?_modify]
  split <;> simp

/-! ### Insertion and extensionality -/

variable [Std.TransOrd κ]

private theorem mem_insertEntry_iff {k k' : κ} {v v' : α} {l : List (κ × α)}
    (h : l.Pairwise fun a b => compare a.1 b.1 = .lt) :
    (k', v') ∈ insertEntry k v l ↔ (k' = k ∧ v' = v) ∨ (k' ≠ k ∧ (k', v') ∈ l) := by
  induction l with
  | nil => simp [insertEntry]
  | cons e l ih =>
    obtain ⟨k₀, v₀⟩ := e
    obtain ⟨hhd, htl⟩ := List.pairwise_cons.1 h
    rw [insertEntry]
    split
    · next hlt =>
      have hne : ∀ e ∈ (k₀, v₀) :: l, e.1 ≠ k := by
        intro e he
        rcases List.mem_cons.1 he with rfl | he
        · exact (ne_of_compare_lt hlt).symm
        · exact (ne_of_compare_lt (Std.TransCmp.lt_trans hlt (hhd e he))).symm
      grind
    · next heq =>
      obtain rfl := Std.LawfulEqCmp.eq_of_compare heq
      have hne : ∀ e ∈ l, e.1 ≠ k := fun e he => (ne_of_compare_lt (hhd e he)).symm
      grind
    · next hgt =>
      have hne : k₀ ≠ k := ne_of_compare_lt (Std.OrientedCmp.lt_of_gt hgt)
      rw [List.mem_cons, ih htl]
      grind

theorem find?_insert [DecidableEq κ] (m : OrderedMap κ α) (k k' : κ) (v : α) :
    (m.insert k v).find? k' = if k' = k then some v else m.find? k' := by
  refine find?_eq_of_entries fun w => ?_
  rw [insert, mem_insertEntry_iff m.ordered, mem_entries_iff]
  by_cases h : k' = k <;> simp [h, eq_comm]

theorem contains_insert [DecidableEq κ] {m : OrderedMap κ α} {k k' : κ} {v : α} :
    (m.insert k v).contains k' = true ↔ k' = k ∨ m.contains k' = true := by
  rw [contains, contains, find?_insert]
  by_cases h : k' = k <;> simp [h]

/-- Maps with the same look-ups are equal: both lists of entries are the same set in the same
strict order. -/
theorem ext_find? {m m' : OrderedMap κ α} (h : ∀ k, m.find? k = m'.find? k) : m = m' := by
  have hmem : ∀ e, e ∈ m.entries ↔ e ∈ m'.entries := fun ⟨k, v⟩ => by
    rw [mem_entries_iff, mem_entries_iff, h k]
  have hperm : m.entries.Perm m'.entries :=
    (List.perm_ext_iff_of_nodup m.nodup_entries m'.nodup_entries).2 hmem
  refine ext (hperm.eq_of_pairwise (fun a b _ _ hab hba => ?_) m.ordered m'.ordered)
  have hgt := Std.OrientedCmp.gt_of_lt hab
  rw [hba] at hgt
  exact Ordering.noConfusion hgt

end IndexControl.OrderedMap
