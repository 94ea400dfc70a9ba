import IndexControl.Proofs.Path.Texts
import IndexControl.Snapshot.Basic
import Mathlib.Data.List.Basic

/-!
# What a fingerprint is made of

A fingerprint is the hash of bytes that are put together without any lengths. What ends in them is
told by end marks. The bytes of a text lie below the marks, and so do those of a word of named
flags, so that a mark in front of which no other one stands ends the first item. Therefore roots
and filters can be told from these bytes, and two of them have one fingerprint only where the hash
brings different bytes together.

## Main definitions

* `Snapshot.IsNamed`: a root whose path is text and whose flags have names.

## Main results

* `Flags.bits_lt_of_unnamed`: the words of named flags.
* `Snapshot.flatMap_marked_inj`: items that end at their marks.
* `Snapshot.fingerprintOf_eq_iff`: which roots and filters have one fingerprint.
-/

namespace IndexControl

namespace Flags

variable {f : Flags}

theorem bits_unnamed (f : Flags) : f.unnamed.bits = f.bits &&& 0xFFFFFFC0 := by
  simp only [unnamed, named, List.foldl_cons, List.foldl_nil, without, UInt32.and_assoc]
  rfl

/-- Six bits have names. -/
theorem bits_lt_of_unnamed (h : f.unnamed = none) : f.bits.toNat < 64 := by
  have hzero : f.bits.toNat &&& 0xFFFFFFC0 = 0 := by
    have hbits := congrArg (fun g : Flags => g.bits.toNat) h
    rwa [bits_unnamed, UInt32.toNat_and] at hbits
  have hmasks : f.bits.toNat &&& (2 ^ 32 - 1) =
      f.bits.toNat &&& 63 ||| f.bits.toNat &&& 0xFFFFFFC0 := by
    rw [← Nat.and_or_distrib_left]
    rfl
  rw [hzero, Nat.or_zero, Nat.and_two_pow_sub_one_eq_mod, Nat.mod_eq_of_lt f.bits.toNat_lt]
    at hmasks
  rw [hmasks]
  exact Nat.lt_succ_of_le Nat.and_le_right

end Flags

namespace Fnv

/-- One step of the hash in arithmetic: the byte is taken in by an exclusive or, then the product
with the prime is cut to 64 bits. -/
theorem toNat_step (h : UInt64) (b : UInt8) :
    (step h b).toNat = (h.toNat ^^^ b.toNat) * 1099511628211 % UInt64.size := by
  rw [step, UInt64.toNat_mul, UInt64.toNat_xor, UInt8.toNat_toUInt64]
  rfl

theorem toNat_hash (bytes : List UInt8) :
    (hash bytes).toNat = bytes.foldl (fun h b => (h ^^^ b.toNat) * 1099511628211 % UInt64.size)
      14695981039346656037 := by
  have hfold (h : UInt64) : (bytes.foldl step h).toNat =
      bytes.foldl (fun h b => (h ^^^ b.toNat) * 1099511628211 % UInt64.size) h.toNat := by
    induction bytes generalizing h with
    | nil => rfl
    | cons b bytes ih => rw [List.foldl_cons, List.foldl_cons, ih, toNat_step]
  exact hfold offset

end Fnv

namespace Snapshot

variable {α : Type} {mark : UInt8} {encode : α → List UInt8} {as bs : List α}
  {rest rest' : List UInt8}

/-! ### End marks -/

/-- Items with a mark behind each are told from one another and from what follows them, as long as
the mark stands nowhere else. -/
theorem flatMap_marked_inj
    (has : ∀ a ∈ as, mark ∉ encode a) (hbs : ∀ b ∈ bs, mark ∉ encode b)
    (hinj : ∀ a ∈ as, ∀ b ∈ bs, encode a = encode b → a = b)
    (hrest : mark ∉ rest) (hrest' : mark ∉ rest')
    (heq : (as.flatMap fun a => encode a ++ [mark]) ++ rest =
      (bs.flatMap fun b => encode b ++ [mark]) ++ rest') : as = bs ∧ rest = rest' := by
  induction as generalizing bs with
  | nil =>
    cases bs with
    | nil => exact ⟨rfl, heq⟩
    | cons b bs =>
      rw [List.flatMap_nil, List.nil_append] at heq
      have hmark : mark ∈ rest := by simp [heq]
      exact absurd hmark hrest
  | cons a as ih =>
    cases bs with
    | nil =>
      rw [List.flatMap_nil, List.nil_append] at heq
      have hmark : mark ∈ rest' := by simp [← heq]
      exact absurd hmark hrest'
    | cons b bs =>
      obtain ⟨ha, has⟩ := List.forall_mem_cons.1 has
      obtain ⟨hb, hbs⟩ := List.forall_mem_cons.1 hbs
      simp only [List.flatMap_cons, List.append_assoc, List.singleton_append] at heq
      obtain ⟨hitem, htail⟩ := Text.append_mark_inj ha hb heq
      have hhead := hinj a List.mem_cons_self b List.mem_cons_self hitem
      obtain ⟨hitems, hrests⟩ := ih has hbs (fun x hx y hy =>
        hinj x (List.mem_cons_of_mem a hx) y (List.mem_cons_of_mem b hy)) htail
      exact ⟨hhead ▸ hitems ▸ rfl, hrests⟩

/-! ### Roots -/

theorem toNat_wordBytes (w : UInt32) : (wordBytes w).map UInt8.toNat =
    [w.toNat % 256, w.toNat / 256 % 256, w.toNat / 65536 % 256, w.toNat / 16777216 % 256] := by
  simp only [wordBytes, List.map_cons, List.map_nil, UInt32.toNat_toUInt8,
    UInt32.toNat_shiftRight, Nat.shiftRight_eq_div_pow, UInt32.reduceToNat, Nat.reduceMod,
    Nat.reducePow]

theorem wordBytes_injective {v w : UInt32} (h : wordBytes v = wordBytes w) : v = w := by
  have hbytes := congrArg (List.map UInt8.toNat) h
  rw [toNat_wordBytes, toNat_wordBytes] at hbytes
  have hv := v.toNat_lt
  have hw := w.toNat_lt
  simp only [List.cons.injEq, and_true] at hbytes
  exact UInt32.toNat_inj.1 (by omega)

theorem mark_notMem_wordBytes {w : UInt32} (h : w.toNat < 64) : 0xFF ∉ wordBytes w := by
  intro hmem
  have hbytes := List.mem_map_of_mem (f := UInt8.toNat) hmem
  rw [toNat_wordBytes] at hbytes
  simp only [UInt8.reduceToNat, List.mem_cons, List.not_mem_nil, or_false] at hbytes
  omega

/-- The root has a path that is text, and no flags but those with names. -/
def IsNamed (root : Path × Flags) : Prop :=
  root.1.toString?.isSome = true ∧ root.2.unnamed = .none

theorem utf8_display {p : Path} (h : p.toString?.isSome = true) :
    Text.utf8 p.display = p.bytes := by
  obtain ⟨s, hs⟩ := Option.isSome_iff_exists.1 h
  have htext : Text.ofUtf8? p.bytes = some s := hs
  rw [Path.display, Text.lossy, htext, Option.getD_some, Text.utf8_of_ofUtf8? htext]

/-- What stands in front of the mark of a root tells its path and its flags. -/
theorem rootBytes_inj {root root' : Path × Flags} (h : IsNamed root) (h' : IsNamed root')
    (heq : Text.utf8 root.1.display ++ wordBytes root.2.bits =
      Text.utf8 root'.1.display ++ wordBytes root'.2.bits) : root = root' := by
  obtain ⟨hpath, hflags⟩ := List.append_inj' heq rfl
  rw [utf8_display h.1, utf8_display h'.1] at hpath
  obtain ⟨⟨bytes⟩, ⟨bits⟩⟩ := root
  obtain ⟨⟨bytes'⟩, ⟨bits'⟩⟩ := root'
  obtain rfl : bytes = bytes' := hpath
  obtain rfl : bits = bits' := wordBytes_injective hflags
  rfl

theorem mark_notMem_rootBytes {root : Path × Flags} (h : IsNamed root) :
    0xFF ∉ Text.utf8 root.1.display ++ wordBytes root.2.bits := by
  rw [List.mem_append, not_or]
  exact ⟨Text.notMem_utf8 (by decide), mark_notMem_wordBytes (Flags.bits_lt_of_unnamed h.2)⟩

/-! ### Lists of patterns -/

variable {ps qs : List String}

/-- Only the marks of patterns and of lists lie above the bytes of a text. -/
theorem mark_notMem_patterns (h : 0xF8 ≤ mark.toNat) (hne : mark ≠ 0xFE) :
    mark ∉ ps.flatMap fun p => Text.utf8 p ++ [0xFE] := by
  intro hmem
  obtain ⟨p, -, hp⟩ := List.mem_flatMap.1 hmem
  rcases List.mem_append.1 hp with htext | hmark
  · exact Text.notMem_utf8 h htext
  · exact hne (List.mem_singleton.1 hmark)

theorem mark_notMem_patternsPreimage : 0xFF ∉ patternsPreimage ps := by
  rw [patternsPreimage, List.mem_append, not_or]
  exact ⟨mark_notMem_patterns (by decide) (by decide), by decide⟩

/-- A list of patterns is told from what follows it. -/
theorem patternsPreimage_append_inj
    (heq : patternsPreimage ps ++ rest = patternsPreimage qs ++ rest') :
    ps = qs ∧ rest = rest' := by
  rw [patternsPreimage, patternsPreimage, List.append_assoc, List.append_assoc,
    List.singleton_append, List.singleton_append] at heq
  obtain ⟨hitems, hrest⟩ := Text.append_mark_inj (mark_notMem_patterns (by decide) (by decide))
    (mark_notMem_patterns (by decide) (by decide)) heq
  have htext (p : String) : 0xFE ∉ Text.utf8 p := Text.notMem_utf8 (by decide)
  have hlists := flatMap_marked_inj (fun p _ => htext p) (fun q _ => htext q)
    (fun _ _ _ _ => Text.utf8_injective) List.not_mem_nil List.not_mem_nil
    ((List.append_nil _).trans (hitems.trans (List.append_nil _).symm))
  exact ⟨hlists.1, hrest⟩

theorem boolByte_injective {a b : Bool} (h : boolByte a = boolByte b) : a = b := by
  revert a b
  decide

/-! ### Fingerprints -/

variable {roots roots' : List (Path × Flags)} {filters filters' : FilterPatterns}

/-- The bytes behind a fingerprint tell the roots, in order, and the filters. -/
theorem preimage_inj (h : ∀ root ∈ roots, IsNamed root) (h' : ∀ root ∈ roots', IsNamed root)
    (heq : preimage roots filters = preimage roots' filters') :
    roots = roots' ∧ filters = filters' := by
  simp only [preimage, List.append_assoc] at heq
  have hmark (filters : FilterPatterns) : 0xFF ∉ patternsPreimage filters.files ++
      (patternsPreimage filters.directories ++
        (patternsPreimage filters.parentMarkers ++ [boolByte filters.filterHidden])) := by
    have hbool : (0xFF : UInt8) ∉ [boolByte filters.filterHidden] := by
      cases filters.filterHidden <;> decide
    simp [mark_notMem_patternsPreimage, hbool]
  obtain ⟨hroots, heq⟩ := flatMap_marked_inj
    (fun root hroot => mark_notMem_rootBytes (h root hroot))
    (fun root hroot => mark_notMem_rootBytes (h' root hroot))
    (fun root hroot root' hroot' => rootBytes_inj (h root hroot) (h' root' hroot'))
    (hmark filters) (hmark filters') heq
  obtain ⟨hfiles, heq⟩ := patternsPreimage_append_inj heq
  obtain ⟨hdirectories, heq⟩ := patternsPreimage_append_inj heq
  obtain ⟨hmarkers, heq⟩ := patternsPreimage_append_inj heq
  have hhidden := boolByte_injective (List.singleton_inj.1 heq)
  obtain ⟨files, directories, markers, hidden⟩ := filters
  obtain ⟨files', directories', markers', hidden'⟩ := filters'
  subst hfiles hdirectories hmarkers hhidden
  exact ⟨hroots, rfl⟩

/-- The fingerprint of a snapshot is the hash of bytes that tell its roots, in order, and its
filters. So two of them agree only where roots and filters do, or where the hash brings different
bytes together. -/
theorem fingerprintOf_eq_iff (h : ∀ root ∈ roots, IsNamed root)
    (h' : ∀ root ∈ roots', IsNamed root) :
    (∀ (s : RootSet) (onDemand : Location → Bool), (ofRoots s onDemand).fingerprint =
        Fnv.hash (preimage (ofRoots s onDemand).roots (ofRoots s onDemand).filters)) ∧
      (∀ bytes, (Fnv.hash bytes).toNat =
        bytes.foldl (fun h b => (h ^^^ b.toNat) * 1099511628211 % UInt64.size)
          14695981039346656037) ∧
      (preimage roots filters = preimage roots' filters' ↔ roots = roots' ∧ filters = filters') ∧
      (fingerprintOf roots filters = fingerprintOf roots' filters' ↔
        (roots = roots' ∧ filters = filters') ∨
          preimage roots filters ≠ preimage roots' filters' ∧
            Fnv.hash (preimage roots filters) = Fnv.hash (preimage roots' filters')) := by
  have hbytes : preimage roots filters = preimage roots' filters' ↔
      roots = roots' ∧ filters = filters' := by
    refine ⟨preimage_inj h h', ?_⟩
    rintro ⟨rfl, rfl⟩
    rfl
  refine ⟨fun _ _ => rfl, Fnv.toNat_hash, hbytes, fun heq => ?_, ?_⟩
  · by_cases hsame : preimage roots filters = preimage roots' filters'
    · exact .inl (hbytes.1 hsame)
    · exact .inr ⟨hsame, heq⟩
  · rintro (hsame | ⟨-, hcollision⟩)
    · exact congrArg Fnv.hash (hbytes.2 hsame)
    · exact hcollision

/-- One pattern is not taken for two that it is put together from. -/
theorem preimage_ne_of_split_pattern :
    let roots := [(Path.ofString "/a", Flags.onDemand), (Path.ofString "/b", Flags.removableVolume)]
    (∀ root ∈ roots, IsNamed root) ∧
      preimage roots ⟨["ab"], [], [], true⟩ ≠ preimage roots ⟨["a", "b"], [], [], true⟩ := by
  intro roots
  have hroots : ∀ root ∈ roots, IsNamed root := by
    have htext (s : String) : (Path.ofString s).toString?.isSome = true := by
      rw [Path.toString?, Path.ofString, Text.ofUtf8?_utf8, Option.isSome_some]
    simp only [roots, List.forall_mem_cons]
    exact ⟨⟨htext _, by decide⟩, ⟨htext _, by decide⟩, by simp⟩
  refine ⟨hroots, fun heq => ?_⟩
  have hfilters := ((fingerprintOf_eq_iff hroots hroots).2.2.1.1 heq).2
  exact absurd hfilters (by decide)

end Snapshot

end IndexControl
