/-!
# Finite maps in key order

A finite map is its list of entries, strictly increasing in the key. Two maps with the same
entries are therefore equal as values, the keys are listed without repetition, and every
operation that visits the map does so in key order.

## Main definitions

* `OrderedMap`: the entries together with the proof that their keys increase.
* `OrderedMap.find?`, `OrderedMap.insert`, `OrderedMap.erase`, `OrderedMap.modify`: look-up and
  the three updates at one key.
* `OrderedMap.filterMap`: change or drop every value at once.
-/

namespace IndexControl

/-- A finite map from `κ` to `α`, kept as its entries in strictly increasing key order. -/
structure OrderedMap (κ : Type) (α : Type) [Ord κ] where
  /-- The entries, smallest key first. -/
  entries : List (κ × α)
  /-- Each key is smaller than every later one. -/
  ordered : entries.Pairwise fun a b => compare a.1 b.1 = .lt

namespace OrderedMap

variable {κ α β : Type} [Ord κ]

@[ext]
theorem ext {m m' : OrderedMap κ α} (h : m.entries = m'.entries) : m = m' := by
  cases m; cases m'; simp_all

/-- The map without entries. -/
def empty : OrderedMap κ α := ⟨[], .nil⟩

instance : Inhabited (OrderedMap κ α) := ⟨empty⟩

instance [DecidableEq κ] [DecidableEq α] : DecidableEq (OrderedMap κ α) := fun m m' =>
  decidable_of_iff (m.entries = m'.entries) ⟨ext, fun h => h ▸ rfl⟩

/-- The keys, smallest first. -/
def keys (m : OrderedMap κ α) : List κ := m.entries.map (·.1)

/-- The values, in the order of their keys. -/
def values (m : OrderedMap κ α) : List α := m.entries.map (·.2)

/-- The number of keys. -/
def size (m : OrderedMap κ α) : Nat := m.entries.length

/-- Whether no key has a value. -/
def isEmpty (m : OrderedMap κ α) : Bool := m.entries.isEmpty

/-- The value at `key`, if there is one. -/
def find? (m : OrderedMap κ α) (key : κ) : Option α :=
  (m.entries.find? fun e => compare key e.1 == .eq).map (·.2)

/-- Whether `key` has a value. -/
def contains (m : OrderedMap κ α) (key : κ) : Bool := (m.find? key).isSome

/-! ### Changing values in place -/

/-- Replace each value by what `f` makes of it, dropping the key where `f` gives nothing. -/
def filterMap (f : κ → α → Option β) (m : OrderedMap κ α) : OrderedMap κ β where
  entries := m.entries.filterMap fun e => (f e.1 e.2).map (e.1, ·)
  ordered := by
    refine m.ordered.filterMap _ fun a b h => ?_
    intro a' ha' b' hb'
    simp only [Option.map_eq_some_iff] at ha' hb'
    obtain ⟨_, _, rfl⟩ := ha'
    obtain ⟨_, _, rfl⟩ := hb'
    exact h

/-- Keep the entries that satisfy `p`. -/
def filter (p : κ → α → Bool) (m : OrderedMap κ α) : OrderedMap κ α :=
  m.filterMap fun k v => if p k v then some v else none

/-- Drop `key`. -/
def erase (m : OrderedMap κ α) (key : κ) : OrderedMap κ α :=
  m.filter fun k _ => compare key k != .eq

/-- Replace the value at `key` by what `f` makes of it; without one, nothing changes. -/
def modify (m : OrderedMap κ α) (key : κ) (f : α → α) : OrderedMap κ α :=
  m.filterMap fun k v => some (if compare key k == .eq then f v else v)

/-! ### Insertion -/

/-- Put an entry where its key belongs, replacing the value of an equal key. -/
def insertEntry (key : κ) (value : α) : List (κ × α) → List (κ × α)
  | [] => [(key, value)]
  | (k, v) :: rest =>
    match compare key k with
    | .lt => (key, value) :: (k, v) :: rest
    | .eq => (key, value) :: rest
    | .gt => (k, v) :: insertEntry key value rest

theorem mem_insertEntry {key : κ} {value : α} {e : κ × α} {l : List (κ × α)}
    (h : e ∈ insertEntry key value l) : e = (key, value) ∨ e ∈ l := by
  induction l with
  | nil => simpa [insertEntry] using h
  | cons hd tl ih =>
    obtain ⟨k, v⟩ := hd
    rw [insertEntry] at h
    split at h <;> grind

variable [Std.TransOrd κ] [Std.LawfulEqOrd κ]

theorem pairwise_insertEntry (key : κ) (value : α) {l : List (κ × α)}
    (h : l.Pairwise fun a b => compare a.1 b.1 = .lt) :
    (insertEntry key value l).Pairwise fun a b => compare a.1 b.1 = .lt := by
  induction l with
  | nil => exact List.pairwise_singleton ..
  | cons hd tl ih =>
    obtain ⟨k, v⟩ := hd
    obtain ⟨hhd, htl⟩ := List.pairwise_cons.1 h
    rw [insertEntry]
    split
    · next hlt =>
      refine List.pairwise_cons.2 ⟨fun e he => ?_, h⟩
      rcases List.mem_cons.1 he with rfl | he
      · exact hlt
      · exact Std.TransCmp.lt_trans hlt (hhd e he)
    · next heq =>
      obtain rfl := Std.LawfulEqCmp.eq_of_compare heq
      exact List.pairwise_cons.2 ⟨hhd, htl⟩
    · next hgt =>
      refine List.pairwise_cons.2 ⟨fun e he => ?_, ih htl⟩
      rcases mem_insertEntry he with rfl | he
      · exact Std.OrientedCmp.lt_of_gt hgt
      · exact hhd e he

/-- Give `key` the value `value`, in place of any it had. -/
def insert (m : OrderedMap κ α) (key : κ) (value : α) : OrderedMap κ α :=
  ⟨insertEntry key value m.entries, pairwise_insertEntry key value m.ordered⟩

/-- The map of a list of entries; of equal keys the last one counts. -/
def ofList (l : List (κ × α)) : OrderedMap κ α :=
  l.foldl (fun m e => m.insert e.1 e.2) empty

end OrderedMap

end IndexControl
