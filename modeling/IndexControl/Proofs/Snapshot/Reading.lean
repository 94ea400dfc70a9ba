import IndexControl.Proofs.Optional
import IndexControl.Snapshot.Basic
import Mathlib.Algebra.Group.Nat.Defs

/-!
# Reading what was written

A stored form is read from the front of some bytes by a reader that is put together from smaller
ones. Each of them reads back what the writer of its value wrote, whatever stands behind it, and
none of them looks at what stands behind. So the bytes of a snapshot give the snapshot, and no
proper front part of them gives any: a reader that was content with less would be content with the
same on the whole bytes, and would leave something over.

## Main definitions

* `Snapshot.Gives`: some bytes are read as a value.
* `Snapshot.IsLocal`: a reader does not look at what stands behind the value.
* `Snapshot.readSnapshot?`: the reader of whole snapshots.

## Main results

* `Varint.read?_encode`: a number is read back exactly if it has the bits it may have.
* `Snapshot.gives_encode`: a snapshot is read back.
* `Snapshot.decode?_encode`, `Snapshot.decode?_prefix`: a stored form is read as what was written,
  and less than one is none.
* `Snapshot.version_of_decode?`: the version that is read is the one that was written.
* `Snapshot.encode?_eq_none_iff`: which snapshots cannot be written.
-/

namespace IndexControl

namespace Varint

theorem read?_nil (bits : Nat) : read? bits [] = none := rfl

theorem read?_cons (bits : Nat) (b : UInt8) (rest : List UInt8) :
    read? bits (b :: rest) =
      if bits = 0 then none
      else if b < 128 then if b.toNat < 2 ^ bits then some (b.toNat, rest) else none
      else
        match read? (bits - 7) rest with
        | none => none
        | some (high, rest) => some (b.toNat - 128 + 128 * high, rest) := rfl

/-- A number is read back exactly if it has no more bits than it may have. -/
theorem read?_encodeGroups (groups : Nat) {bits : Nat} (hpos : 0 < bits)
    (hbits : bits ≤ 7 * groups) (n : Nat) (rest : List UInt8) :
    read? bits (encodeGroups groups n ++ rest) = if n < 2 ^ bits then some (n, rest) else none := by
  induction groups generalizing bits n with
  | zero => omega
  | succ groups ih =>
    rw [encodeGroups]
    split
    · next hsmall =>
      have hbyte : (UInt8.ofNat n).toNat = n := by
        rw [UInt8.toNat_ofNat']
        omega
      have hlast : UInt8.ofNat n < 128 := by
        rw [UInt8.lt_iff_toNat_lt, hbyte]
        exact hsmall
      rw [List.singleton_append, read?_cons, if_neg (Nat.ne_of_gt hpos), if_pos hlast, hbyte]
    · next hlarge =>
      have hbyte : (UInt8.ofNat (n % 128 + 128)).toNat = n % 128 + 128 := by
        rw [UInt8.toNat_ofNat']
        omega
      have hmore : ¬UInt8.ofNat (n % 128 + 128) < 128 := by
        rw [UInt8.lt_iff_toNat_lt, hbyte]
        simp
      rw [List.cons_append, read?_cons, if_neg (Nat.ne_of_gt hpos), if_neg hmore]
      by_cases hfew : bits ≤ 7
      · have hnot : ¬n < 2 ^ bits := by
          have : 2 ^ bits ≤ 2 ^ 7 := Nat.pow_le_pow_right (by decide) hfew
          omega
        have hnone : read? (bits - 7) (encodeGroups groups (n / 128) ++ rest) = none := by
          rw [Nat.sub_eq_zero_of_le hfew]
          cases encodeGroups groups (n / 128) ++ rest <;> rfl
        rw [hnone, if_neg hnot]
      · have hsplit : 2 ^ bits = 2 ^ (bits - 7) * 128 := by
          rw [show (128 : Nat) = 2 ^ 7 from rfl, ← Nat.pow_add, Nat.sub_add_cancel (by omega)]
        rw [ih (by omega) (by omega)]
        have hiff : n / 128 < 2 ^ (bits - 7) ↔ n < 2 ^ bits := by
          rw [hsplit]
          exact Nat.div_lt_iff_lt_mul (by decide)
        by_cases hfits : n < 2 ^ bits
        · rw [if_pos hfits, if_pos (hiff.2 hfits)]
          simp only [hbyte, Option.some.injEq, Prod.mk.injEq, and_true]
          omega
        · rw [if_neg hfits, if_neg (mt hiff.1 hfits)]

theorem read?_encode {bits : Nat} (hpos : 0 < bits) (hbits : bits ≤ 70) (n : Nat)
    (rest : List UInt8) :
    read? bits (encode n ++ rest) = if n < 2 ^ bits then some (n, rest) else none :=
  read?_encodeGroups 10 hpos hbits n rest

/-- What stands behind a number is not looked at. -/
theorem read?_append {bits n : Nat} {bytes rest : List UInt8}
    (h : read? bits bytes = some (n, rest)) (more : List UInt8) :
    read? bits (bytes ++ more) = some (n, rest ++ more) := by
  induction bytes generalizing bits n with
  | nil =>
    rw [read?_nil] at h
    contradiction
  | cons b bytes ih =>
    rw [read?_cons] at h
    rw [List.cons_append, read?_cons]
    split at h
    · cases h
    · next hbits =>
      rw [if_neg hbits]
      split at h
      · next hlast =>
        rw [if_pos hlast]
        split at h
        · next hfits =>
          cases h
          rw [if_pos hfits]
        · cases h
      · next hlast =>
        rw [if_neg hlast]
        split at h
        · cases h
        · next high rest' hread =>
          cases h
          rw [ih hread]

end Varint

namespace Snapshot

variable {α β : Type} {read : Reader α} {next : α → Reader β} {a : α} {b : β}
  {bytes bytes' : List UInt8}

/-! ### Readers -/

/-- Some bytes are read as a value, whatever stands behind them. -/
def Gives (read : Reader α) (bytes : List UInt8) (a : α) : Prop :=
  ∀ more, read (bytes ++ more) = some (a, more)

/-- A reader does not look at what stands behind the value it reads. -/
def IsLocal (read : Reader α) : Prop :=
  ∀ ⦃bytes a rest⦄, read bytes = some (a, rest) → ∀ more,
    read (bytes ++ more) = some (a, rest ++ more)

/-- One reader after the other. -/
def followedBy (read : Reader α) (next : α → Reader β) : Reader β := fun bytes =>
  (read bytes).bind fun r => next r.1 r.2

/-- A reader that makes something of what it has read. -/
def mapped (f : α → β) (read : Reader α) : Reader β := fun bytes =>
  (read bytes).map fun r => (f r.1, r.2)

theorem Gives.followedBy (h : Gives read bytes a) (h' : Gives (next a) bytes' b) :
    Gives (followedBy read next) (bytes ++ bytes') b := by
  intro more
  rw [Snapshot.followedBy, List.append_assoc, h]
  exact h' more

theorem Gives.mapped {f : α → β} (h : Gives read bytes a) (hf : f a = b) :
    Gives (mapped f read) bytes b := by
  intro more
  rw [Snapshot.mapped, h more, ← hf]
  rfl

theorem IsLocal.followedBy (h : IsLocal read) (h' : ∀ a, IsLocal (next a)) :
    IsLocal (followedBy read next) := by
  intro bytes b rest hread more
  rw [Snapshot.followedBy, Option.bind_eq_some_iff] at hread
  obtain ⟨⟨a, middle⟩, hfirst, hsecond⟩ := hread
  rw [Snapshot.followedBy, h hfirst more]
  exact h' a hsecond more

theorem IsLocal.mapped (h : IsLocal read) (f : α → β) : IsLocal (mapped f read) := by
  intro bytes b rest hread more
  rw [Snapshot.mapped, Option.map_eq_some_iff] at hread
  obtain ⟨⟨a, rest'⟩, hfirst, heq⟩ := hread
  cases heq
  rw [Snapshot.mapped, h hfirst more]
  rfl

/-- A local reader gives nothing on a proper front part of what it reads as a whole: the same value
would leave something over on the whole. -/
theorem IsLocal.eq_none_of_prefix (h : IsLocal read) (hgives : Gives read bytes a)
    {front : List UInt8} (hfront : front <+: bytes) (hne : front ≠ bytes) :
    read front = none := by
  obtain ⟨more, rfl⟩ := hfront
  by_contra hsome
  obtain ⟨⟨b, rest⟩, hread⟩ := Option.ne_none_iff_exists'.1 hsome
  have hwhole := hgives []
  rw [List.append_nil, h hread more, Option.some.injEq, Prod.mk.injEq] at hwhole
  exact hne (by simp [(List.append_eq_nil_iff.1 hwhole.2).2])

/-! ### Numbers, texts and truth values -/

theorem isLocal_number (bits : Nat) : IsLocal (Varint.read? bits) :=
  fun _ _ _ h => Varint.read?_append h

theorem gives_number {bits n : Nat} (hpos : 0 < bits) (hbits : bits ≤ 70) (hfits : n < 2 ^ bits) :
    Gives (Varint.read? bits) (Varint.encode n) n := by
  intro more
  rw [Varint.read?_encode hpos hbits, if_pos hfits]

theorem isLocal_readBool : IsLocal readBool? := by
  intro bytes b rest h more
  unfold readBool? at h
  split at h
  · cases h
    rfl
  · cases h
    rfl
  · cases h

theorem gives_boolByte (b : Bool) : Gives readBool? [boolByte b] b := by
  intro more
  cases b <;> rfl

theorem isLocal_readText : IsLocal readText? := by
  intro bytes text rest h more
  rw [readText?] at h
  split at h
  · cases h
  · next length middle hlength =>
    split at h
    · cases h
    · next henough =>
      rw [Option.map_eq_some_iff] at h
      obtain ⟨text', htext, heq⟩ := h
      cases heq
      have hle : length ≤ middle.length := Nat.not_lt.1 henough
      rw [readText?, Varint.read?_append hlength more]
      simp only [List.length_append, List.take_append_of_le_length hle,
        List.drop_append_of_le_length hle, htext, Option.map_some]
      rw [if_neg (by omega)]

theorem gives_text {text : String} (h : (Text.utf8 text).length < 2 ^ 64) :
    Gives readText? (encodeBytes (Text.utf8 text)) text := by
  intro more
  rw [readText?, encodeBytes, List.append_assoc,
    gives_number (by decide) (by decide) h (Text.utf8 text ++ more)]
  simp

/-! ### Lists -/

theorem isLocal_readMany (h : IsLocal read) (count : Nat) : IsLocal (readMany? read count) := by
  induction count with
  | zero =>
    intro bytes items rest hread more
    cases hread
    rfl
  | succ count ih =>
    intro bytes items rest hread more
    rw [readMany?] at hread
    split at hread
    · cases hread
    · next a middle hfirst =>
      rw [Option.map_eq_some_iff] at hread
      obtain ⟨⟨items', rest'⟩, hrest, heq⟩ := hread
      cases heq
      rw [readMany?, h hfirst more]
      simp only [ih hrest more, Option.map_some]

theorem isLocal_readList (h : IsLocal read) : IsLocal (readList? read) := by
  intro bytes items rest hread more
  rw [readList?] at hread
  split at hread
  · cases hread
  · next count middle hcount =>
    split at hread
    · cases hread
    · next henough =>
      rw [readList?, Varint.read?_append hcount more]
      simp only [List.length_append]
      rw [if_neg (by omega)]
      exact isLocal_readMany h count hread more

/-- Written items are read back one after the other. -/
theorem gives_readMany {items : List α} {parts : List (List UInt8)}
    (h : List.Forall₂ (fun a part => Gives read part a) items parts) :
    Gives (readMany? read items.length) parts.flatten items := by
  induction h with
  | nil => exact fun more => rfl
  | cons hfirst _ ih =>
    intro more
    rw [List.length_cons, readMany?, List.flatten_cons, List.append_assoc, hfirst]
    simp only [ih more, Option.map_some]

/-- A reader that reads nothing from nothing takes a byte at least for each item. -/
theorem length_le_of_gives (hempty : read [] = none) {items : List α} {parts : List (List UInt8)}
    (h : List.Forall₂ (fun a part => Gives read part a) items parts) :
    items.length ≤ parts.flatten.length := by
  induction h with
  | nil => simp
  | @cons a part items parts hfirst _ ih =>
    have hpart : part ≠ [] := by
      rintro rfl
      have hnothing := hfirst []
      rw [List.append_nil, hempty] at hnothing
      cases hnothing
    have hpos := List.length_pos_iff.2 hpart
    simp only [List.length_cons, List.flatten_cons, List.length_append]
    omega

/-- A list of written items is read back. -/
theorem gives_readList (hempty : read [] = none) {items : List α} {parts : List (List UInt8)}
    (h : List.Forall₂ (fun a part => Gives read part a) items parts)
    (hsize : parts.flatten.length < 2 ^ 64) :
    Gives (readList? read) (Varint.encode items.length ++ parts.flatten) items := by
  intro more
  have hcount := length_le_of_gives hempty h
  rw [readList?, List.append_assoc,
    gives_number (by decide) (by decide) (Nat.lt_of_le_of_lt hcount hsize)]
  simp only [List.length_append]
  rw [if_neg (by omega)]
  exact gives_readMany h more

/-- A list of texts is read back. -/
theorem gives_texts {texts : List String} (hsize : (encodeTexts texts).length < 2 ^ 64) :
    Gives (readList? readText?) (encodeTexts texts) texts := by
  rw [encodeTexts, List.flatMap_def] at hsize ⊢
  rw [List.length_append] at hsize
  refine gives_readList rfl ?_ (Nat.lt_of_le_of_lt (Nat.le_add_left ..) hsize)
  rw [List.forall₂_map_right_iff, List.forall₂_same]
  intro text htext
  have hmem : encodeBytes (Text.utf8 text) ∈ texts.map fun s => encodeBytes (Text.utf8 s) :=
    List.mem_map_of_mem htext
  have hpart := (List.sublist_flatten_of_mem hmem).length_le
  rw [encodeBytes, List.length_append] at hpart
  exact gives_text (by omega)

/-! ### Roots and snapshots -/

theorem readRoot?_eq :
    readRoot? = followedBy readText? fun text =>
      mapped (fun flags => (Path.ofString text, (⟨UInt32.ofNat flags⟩ : Flags)))
        (Varint.read? 32) := by
  funext bytes
  rw [readRoot?, followedBy]
  cases readText? bytes with
  | none => rfl
  | some r =>
    obtain ⟨text, rest⟩ := r
    simp only [Option.bind_eq_bind, Option.bind_some, mapped]
    cases Varint.read? 32 rest <;> rfl

theorem isLocal_readRoot : IsLocal readRoot? := by
  rw [readRoot?_eq]
  exact isLocal_readText.followedBy fun _ => (isLocal_number 32).mapped _

/-- A root is read back: its path is text, and its flags are a word of 32 bits. -/
theorem gives_root {root : Path × Flags} (h : encodeRoot? root = some bytes)
    (hsize : bytes.length < 2 ^ 64) : Gives readRoot? bytes root := by
  obtain ⟨path, flags⟩ := root
  rw [encodeRoot?, Option.map_eq_some_iff] at h
  obtain ⟨text, htext, rfl⟩ := h
  have hutf8 : Text.utf8 text = path.bytes := Text.utf8_of_ofUtf8? htext
  rw [encodeBytes, List.length_append, List.length_append] at hsize
  rw [readRoot?_eq]
  refine (gives_text (by omega)).followedBy
    ((gives_number (by decide) (by decide) flags.bits.toNat_lt).mapped ?_)
  simp [Path.ofString, hutf8]

/-- The reader of filter patterns. -/
def readPatterns? : Reader FilterPatterns :=
  followedBy (readList? readText?) fun files =>
  followedBy (readList? readText?) fun directories =>
  followedBy (readList? readText?) fun parentMarkers =>
  mapped (fun filterHidden => { files, directories, parentMarkers, filterHidden }) readBool?

/-- The reader of whole snapshots. -/
def readSnapshot? : Reader Snapshot :=
  followedBy (Varint.read? 32) fun version =>
  followedBy (Varint.read? 64) fun fingerprint =>
  followedBy (readList? readRoot?) fun roots =>
  mapped (fun filters => { version, fingerprint := UInt64.ofNat fingerprint, roots, filters })
    readPatterns?

/-- A stored form is read by the reader of whole snapshots, and what is left over is dropped. -/
theorem decode?_eq (bytes : List UInt8) : decode? bytes = (readSnapshot? bytes).map (·.1) := by
  unfold decode? readSnapshot? readPatterns? followedBy mapped
  simp only [Option.bind_eq_bind, Option.pure_def, Option.map_eq_bind, Function.comp_def,
    Option.bind_assoc, Option.bind_some]

theorem isLocal_readSnapshot : IsLocal readSnapshot? := by
  have htexts := isLocal_readList isLocal_readText
  refine (isLocal_number 32).followedBy fun _ => (isLocal_number 64).followedBy fun _ =>
    (isLocal_readList isLocal_readRoot).followedBy fun _ => IsLocal.mapped ?_ _
  exact htexts.followedBy fun _ => htexts.followedBy fun _ => htexts.followedBy fun _ =>
    isLocal_readBool.mapped _

/-- The written patterns of the filters are read back. -/
theorem gives_patterns {p : FilterPatterns}
    (hfiles : (encodeTexts p.files).length < 2 ^ 64)
    (hdirectories : (encodeTexts p.directories).length < 2 ^ 64)
    (hmarkers : (encodeTexts p.parentMarkers).length < 2 ^ 64) :
    Gives readPatterns? (encodeTexts p.files ++ (encodeTexts p.directories ++
      (encodeTexts p.parentMarkers ++ [boolByte p.filterHidden]))) p :=
  (gives_texts hfiles).followedBy <| (gives_texts hdirectories).followedBy <|
    (gives_texts hmarkers).followedBy <| (gives_boolByte p.filterHidden).mapped rfl

/-- **A snapshot is read back from what is written of it.** -/
theorem gives_encode {s : Snapshot} (h : s.encode? = some bytes) (hversion : s.version < 2 ^ 32)
    (hsize : bytes.length < 2 ^ 64) : Gives readSnapshot? bytes s := by
  obtain ⟨version, fingerprint, roots, filters⟩ := s
  simp only [encode?, Option.bind_eq_bind, Option.bind_eq_some_iff, Option.pure_def,
    Option.some.injEq] at h
  obtain ⟨parts, hparts, rfl⟩ := h
  have hroots := Optional.mapM_eq_some_iff.1 hparts
  simp only [List.append_assoc, List.length_append] at hsize ⊢
  have hlist : Gives (readList? readRoot?) (Varint.encode roots.length ++ parts.flatten) roots := by
    refine gives_readList rfl ?_ (by omega)
    refine List.forall₂_iff_zip.2 ⟨hroots.length_eq, fun {root part} hmem => ?_⟩
    have hlength := (List.sublist_flatten_of_mem (List.of_mem_zip hmem).2).length_le
    exact gives_root ((List.forall₂_iff_zip.1 hroots).2 hmem) (by omega)
  rw [← hroots.length_eq, ← List.append_assoc (Varint.encode roots.length)]
  refine (gives_number (by decide) (by decide) hversion).followedBy ?_
  refine (gives_number (by decide) (by decide) fingerprint.toNat_lt).followedBy ?_
  refine hlist.followedBy ((gives_patterns (by omega) (by omega) (by omega)).mapped ?_)
  simp

/-! ### Whole stored forms -/

/-- A stored form is read as the snapshot that was written. -/
theorem decode?_encode {s : Snapshot} (h : s.encode? = some bytes) (hversion : s.version < 2 ^ 32)
    (hsize : bytes.length < 2 ^ 64) : decode? bytes = some s := by
  have hread := gives_encode h hversion hsize []
  rw [List.append_nil] at hread
  rw [decode?_eq, hread, Option.map_some]

/-- Less than a stored form is none. -/
theorem decode?_prefix {s : Snapshot} (h : s.encode? = some bytes) (hversion : s.version < 2 ^ 32)
    (hsize : bytes.length < 2 ^ 64) {front : List UInt8} (hfront : front <+: bytes)
    (hne : front ≠ bytes) : decode? front = none := by
  rw [decode?_eq, isLocal_readSnapshot.eq_none_of_prefix (gives_encode h hversion hsize) hfront hne,
    Option.map_none]

/-- The version that is read off a stored form is the one that was written, whatever else is
read. -/
theorem version_of_decode? {s t : Snapshot} (h : s.encode? = some bytes)
    (ht : decode? bytes = some t) : t.version = s.version := by
  simp only [encode?, Option.bind_eq_bind, Option.bind_eq_some_iff, Option.pure_def,
    Option.some.injEq] at h
  obtain ⟨parts, -, rfl⟩ := h
  rw [decode?_eq, readSnapshot?, followedBy] at ht
  have hbits : 0 < 32 ∧ 32 ≤ 70 := by decide
  simp only [List.append_assoc, Varint.read?_encode hbits.1 hbits.2] at ht
  split at ht
  · simp only [followedBy, mapped, Option.bind_some, Option.map_eq_some_iff,
      Option.bind_eq_some_iff] at ht
    obtain ⟨_, ⟨_, -, _, -, _, -, rfl⟩, rfl⟩ := ht
    rfl
  · cases ht

/-- Snapshots whose paths are texts can be written, and no others. -/
theorem encode?_eq_none_iff {s : Snapshot} :
    s.encode? = none ↔ ∃ root ∈ s.roots, root.1.toString? = none := by
  have hroot (root : Path × Flags) : encodeRoot? root = none ↔ root.1.toString? = none := by
    rw [encodeRoot?, Option.map_eq_none_iff]
  simp only [← hroot, ← Optional.mapM_eq_none_iff, encode?]
  cases s.roots.mapM encodeRoot? <;> simp

end Snapshot

end IndexControl
