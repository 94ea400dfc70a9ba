import IndexControl.Disk
import IndexControl.Proofs.OrderedMap
import Mathlib.Data.List.Basic

/-!
# Walks that arrive

A walk takes the pieces of a path one by one, and a link puts the pieces of its target in front of
those that are left. The walks that arrive are an inductive relation with one rule for what can
become of a piece, so that what is true of them is proved by going through the rules; equations of
the walk beside the rules say that it goes the same way on any disk with the same entries on its
way.

## Main definitions

* `Disk.Purpose.Names`: a piece is looked up under its name.
* `Disk.Route`: the walks that arrive.
* `Disk.FileAt`: a place has been given to a file.
* `Disk.EndsAtFile`: what becomes of a walk that ended at this place.

## Main results

* `Disk.route_of_walkPieces`: a walk that arrives follows the rules.
* `Disk.node?_of_route_vacant`: a free name is free.
* `Disk.walkPieces_newDirectory_of_target`: the name of what is there is taken.
* `Disk.walkPieces_target_of_newFile`: a file to write is where one to read is.
* `Disk.walkPieces_init_of_append`: where a name can be looked up, there is a directory.
* `Disk.Route.endsAtFile`: a file that takes the place a walk has led to is found there, unless
  it took it from a link that the walk followed on its way.
-/

namespace IndexControl.Disk

variable {disk : Disk} {purpose : Purpose} {links : Nat} {here : Place} {piece : List UInt8}
  {rest : List (List UInt8)} {spot : Spot}

/-! ### Entries after a change -/

theorem node?_put {place : Place} (hne : place ≠ []) (node : Node) (q : Place) :
    (disk.put place node).node? q = if q = place then some node else disk.node? q := by
  rw [node?, node?, put, OrderedMap.find?_insert]
  by_cases hq : q = place
  · rw [if_neg (hq ▸ hne), if_pos hq, if_pos hq]
  · rw [if_neg hq, if_neg hq]

/-- The node that was put at a place last is the one that counts. -/
@[simp]
theorem put_put (place : Place) (node node' : Node) :
    (disk.put place node).put place node' = disk.put place node' := by
  simp only [put, Disk.mk.injEq]
  refine OrderedMap.ext_find? fun q => ?_
  simp only [OrderedMap.find?_insert]
  split <;> rfl

/-! ### One piece of a walk -/

/-- A piece is looked up under its name: it does not stay or lead up, it is not too long, and no
slash stands behind the last name of a file to write. -/
structure Purpose.Names (purpose : Purpose) (piece : List UInt8) (rest : List (List UInt8)) :
    Prop where
  not_idle : Path.isIdle piece = false
  not_up : piece ≠ [Path.dot, Path.dot]
  no_slash : purpose = .newFile → purpose.isLast rest = true → rest = []
  not_long : piece.length ≤ nameLimit

/-- What is a name stays one whatever is behind it, unless a file is to be written. -/
theorem Purpose.Names.of_ne_newFile {later : Purpose} {rest' : List (List UInt8)}
    (h : purpose.Names piece rest) (hlater : later ≠ .newFile) : later.Names piece rest' :=
  ⟨h.not_idle, h.not_up, fun hfile => absurd hfile hlater, h.not_long⟩

/-- What a link is followed to: the pieces of its target, from the root or from the place that
holds the link. -/
def base (here : Place) (target : List UInt8) : Place :=
  if (Path.mk target).isAbsolute then [] else here

@[simp]
theorem walkPieces_nil : disk.walkPieces purpose links here [] = .ok (.found here) := by
  cases links <;> rfl

theorem walkPieces_of_not_directory (h : disk.node? here ≠ some .directory) :
    disk.walkPieces purpose links here (piece :: rest) = .error .notADirectory := by
  cases links <;> rw [walkPieces, walkWith, if_pos h]

/-- A piece that is neither idle nor leads up nor is a name ends the walk. -/
theorem walkPieces_ne_ok (hidle : Path.isIdle piece ≠ true) (hup : piece ≠ [Path.dot, Path.dot])
    (hname : ¬purpose.Names piece rest) :
    disk.walkPieces purpose links here (piece :: rest) ≠ .ok spot := by
  have hfaults : (purpose = .newFile && purpose.isLast rest && !rest.isEmpty) = true ∨
      nameLimit < piece.length := by
    by_contra hnone
    obtain ⟨hslash, hlong⟩ := not_or.1 hnone
    exact hname ⟨by simpa using hidle, hup, by simpa [and_imp] using hslash, Nat.not_lt.1 hlong⟩
  cases links <;> rw [walkPieces, walkWith, if_neg hidle, if_neg hup] <;> grind

theorem walkPieces_idle (hdir : disk.node? here = some .directory)
    (hidle : Path.isIdle piece = true) :
    disk.walkPieces purpose links here (piece :: rest) =
      disk.walkPieces purpose links here rest := by
  cases links <;> rw [walkPieces, walkWith, if_neg (not_not_intro hdir), if_pos hidle]

theorem walkPieces_up (hdir : disk.node? here = some .directory) :
    disk.walkPieces purpose links here ([Path.dot, Path.dot] :: rest) =
      disk.walkPieces purpose links here.dropLast rest := by
  have hidle : Path.isIdle [Path.dot, Path.dot] ≠ true := by decide
  cases links <;> rw [walkPieces, walkWith, if_neg (not_not_intro hdir), if_neg hidle, if_pos rfl]

/-- What becomes of a name: the entry of the directory decides. -/
theorem walkPieces_name (hdir : disk.node? here = some .directory)
    (hname : purpose.Names piece rest) :
    disk.walkPieces purpose links here (piece :: rest) =
      match disk.node? (here ++ [piece]) with
      | none => if purpose.isLast rest then .ok (.vacant (here ++ [piece])) else .error .notFound
      | some (.link target) =>
        if purpose.isLast rest && !purpose.followsLast then .ok (.found (here ++ [piece]))
        else match links with
          | 0 => .error .tooManyLinks
          | links + 1 =>
            disk.walkPieces purpose links (base here target) (Path.split target ++ rest)
      | some _ =>
        if purpose.isLast rest then .ok (.found (here ++ [piece]))
        else disk.walkPieces purpose links (here ++ [piece]) rest := by
  have hidle : Path.isIdle piece ≠ true := by simp [hname.not_idle]
  have hslash : ¬(purpose = .newFile && purpose.isLast rest && !rest.isEmpty) = true := by
    simpa [and_imp] using hname.no_slash
  have hlong : ¬nameLimit < piece.length := Nat.not_lt.2 hname.not_long
  cases links <;>
    exact (if_neg (not_not_intro hdir)).trans <| (if_neg hidle).trans <|
      (if_neg hname.not_up).trans <| (if_neg hslash).trans (if_neg hlong)

section Names

variable {node : Node}

theorem walkPieces_arrive (hdir : disk.node? here = some .directory)
    (hname : purpose.Names piece rest) (hlast : purpose.isLast rest = true)
    (hnode : disk.node? (here ++ [piece]) = some node)
    (hlink : purpose.followsLast = true → ∀ target, node ≠ .link target) :
    disk.walkPieces purpose links here (piece :: rest) = .ok (.found (here ++ [piece])) := by
  rw [walkPieces_name hdir hname, hnode]
  cases node with
  | link target =>
    have hleft : purpose.followsLast = false := by
      by_contra h
      exact hlink (by simpa using h) target rfl
    simp [hlast, hleft]
  | _ => exact if_pos hlast

theorem walkPieces_enter (hdir : disk.node? here = some .directory)
    (hname : purpose.Names piece rest) (hlast : purpose.isLast rest = false)
    (hnode : disk.node? (here ++ [piece]) = some node) (hlink : ∀ target, node ≠ .link target) :
    disk.walkPieces purpose links here (piece :: rest) =
      disk.walkPieces purpose links (here ++ [piece]) rest := by
  rw [walkPieces_name hdir hname, hnode]
  cases node with
  | link target => exact absurd rfl (hlink target)
  | _ => simp [hlast]

theorem walkPieces_follow {target : List UInt8} (hdir : disk.node? here = some .directory)
    (hname : purpose.Names piece rest)
    (hgoes : purpose.isLast rest = true → purpose.followsLast = true)
    (hnode : disk.node? (here ++ [piece]) = some (.link target)) :
    disk.walkPieces purpose (links + 1) here (piece :: rest) =
      disk.walkPieces purpose links (base here target) (Path.split target ++ rest) := by
  rw [walkPieces_name hdir hname, hnode]
  have hstay : ¬(purpose.isLast rest && !purpose.followsLast) = true := by
    simpa [and_imp] using hgoes
  simp only [if_neg hstay]

end Names

/-! ### Walks that arrive -/

/-- The walks that arrive, by what becomes of each piece. -/
inductive Route (disk : Disk) (purpose : Purpose) :
    Nat → Place → List (List UInt8) → Spot → Prop where
  | stop (links : Nat) (here : Place) : Route disk purpose links here [] (.found here)
  | idle (links : Nat) (here : Place) (piece : List UInt8) (rest : List (List UInt8))
      (spot : Spot) (hdir : disk.node? here = some .directory) (hidle : Path.isIdle piece = true)
      (next : Route disk purpose links here rest spot) :
      Route disk purpose links here (piece :: rest) spot
  | up (links : Nat) (here : Place) (rest : List (List UInt8)) (spot : Spot)
      (hdir : disk.node? here = some .directory)
      (next : Route disk purpose links here.dropLast rest spot) :
      Route disk purpose links here ([Path.dot, Path.dot] :: rest) spot
  | free (links : Nat) (here : Place) (piece : List UInt8) (rest : List (List UInt8))
      (hdir : disk.node? here = some .directory) (hname : purpose.Names piece rest)
      (hlast : purpose.isLast rest = true) (hnone : disk.node? (here ++ [piece]) = none) :
      Route disk purpose links here (piece :: rest) (.vacant (here ++ [piece]))
  | arrive (links : Nat) (here : Place) (piece : List UInt8) (rest : List (List UInt8))
      (node : Node) (hdir : disk.node? here = some .directory)
      (hname : purpose.Names piece rest) (hlast : purpose.isLast rest = true)
      (hnode : disk.node? (here ++ [piece]) = some node)
      (hlink : purpose.followsLast = true → ∀ target, node ≠ .link target) :
      Route disk purpose links here (piece :: rest) (.found (here ++ [piece]))
  | enter (links : Nat) (here : Place) (piece : List UInt8) (rest : List (List UInt8))
      (node : Node) (spot : Spot) (hdir : disk.node? here = some .directory)
      (hname : purpose.Names piece rest) (hlast : purpose.isLast rest = false)
      (hnode : disk.node? (here ++ [piece]) = some node) (hlink : ∀ target, node ≠ .link target)
      (next : Route disk purpose links (here ++ [piece]) rest spot) :
      Route disk purpose links here (piece :: rest) spot
  | follow (links : Nat) (here : Place) (piece : List UInt8) (rest : List (List UInt8))
      (target : List UInt8) (spot : Spot) (hdir : disk.node? here = some .directory)
      (hname : purpose.Names piece rest)
      (hgoes : purpose.isLast rest = true → purpose.followsLast = true)
      (hnode : disk.node? (here ++ [piece]) = some (.link target))
      (next : Route disk purpose links (base here target) (Path.split target ++ rest) spot) :
      Route disk purpose (links + 1) here (piece :: rest) spot

/-- A walk that arrives follows the rules. -/
theorem route_of_walkPieces {pieces : List (List UInt8)}
    (h : disk.walkPieces purpose links here pieces = .ok spot) :
    disk.Route purpose links here pieces spot := by
  induction links using Nat.strongRecOn generalizing here pieces with
  | ind links ihLinks =>
  induction pieces generalizing here with
  | nil =>
    rw [walkPieces_nil] at h
    cases h
    exact .stop ..
  | cons piece rest ih =>
    have hdir : disk.node? here = some .directory := by
      by_contra hdir
      rw [walkPieces_of_not_directory hdir] at h
      cases h
    by_cases hidle : Path.isIdle piece = true
    · exact .idle _ _ _ _ _ hdir hidle (ih (walkPieces_idle hdir hidle ▸ h))
    by_cases hup : piece = [Path.dot, Path.dot]
    · subst hup
      exact .up _ _ _ _ hdir (ih (walkPieces_up hdir ▸ h))
    have hname : purpose.Names piece rest := by
      by_contra hname
      exact walkPieces_ne_ok hidle hup hname h
    rw [walkPieces_name hdir hname] at h
    split at h
    · next hnone =>
      split at h
      · next hlast =>
        cases h
        exact .free _ _ _ _ hdir hname hlast hnone
      · cases h
    · next target hlink =>
      split at h
      · next hstay =>
        obtain ⟨hlast, hleft⟩ : purpose.isLast rest = true ∧ purpose.followsLast = false := by
          simpa using hstay
        cases h
        exact .arrive _ _ _ _ _ hdir hname hlast hlink (by simp [hleft])
      · next hgoes =>
        have hgoes : purpose.isLast rest = true → purpose.followsLast = true := by
          simpa [and_imp] using hgoes
        cases links with
        | zero => cases h
        | succ links =>
          exact .follow _ _ _ _ _ _ hdir hname hgoes hlink (ihLinks links (Nat.lt_succ_self _) h)
    · next node hlink hnode =>
      have hlink : ∀ target, node ≠ .link target := fun target hnode =>
        hlink target (hnode ▸ rfl)
      split at h
      · next hlast =>
        cases h
        exact .arrive _ _ _ _ _ hdir hname hlast hnode fun _ => hlink
      · next hlast => exact .enter _ _ _ _ _ _ hdir hname (by simpa using hlast) hnode hlink (ih h)

/-- A free name is free. -/
theorem node?_of_route_vacant {pieces : List (List UInt8)} {place : Place}
    (h : disk.Route purpose links here pieces (.vacant place)) : disk.node? place = none := by
  generalize hspot : Spot.vacant place = spot at h
  induction h with
  | stop => cases hspot
  | idle _ _ _ _ _ _ _ _ ih | up _ _ _ _ _ _ ih => exact ih hspot
  | free _ _ _ _ _ _ _ hnone =>
    cases hspot
    exact hnone
  | arrive => cases hspot
  | enter _ _ _ _ _ _ _ _ _ _ _ _ ih | follow _ _ _ _ _ _ _ _ _ _ _ ih => exact ih hspot

/-! ### Two walks for different purposes -/

/-- Where a directory to be made would come, there is something already if the path leads
anywhere. -/
theorem walkPieces_newDirectory_of_target {pieces : List (List UInt8)} {place : Place}
    (h : disk.Route .target links here pieces (.found place)) :
    ∃ taken, disk.walkPieces .newDirectory links here pieces = .ok (.found taken) := by
  generalize hspot : Spot.found place = spot at h
  induction h with
  | stop links here => exact ⟨here, walkPieces_nil⟩
  | idle _ _ _ _ _ hdir hidle _ ih =>
    rw [walkPieces_idle hdir hidle]
    exact ih hspot
  | up _ _ _ _ hdir _ ih =>
    rw [walkPieces_up hdir]
    exact ih hspot
  | free => cases hspot
  | arrive links here piece rest node hdir hname hlast hnode hlink =>
    have hrest : rest = [] := by simpa [Purpose.isLast] using hlast
    subst hrest
    exact ⟨_, walkPieces_arrive hdir (hname.of_ne_newFile nofun) rfl hnode nofun⟩
  | enter links here piece rest node spot hdir hname hlast hnode hlink next ih =>
    have hname' : Purpose.newDirectory.Names piece rest := hname.of_ne_newFile nofun
    by_cases hslashes : Purpose.newDirectory.isLast rest = true
    · exact ⟨_, walkPieces_arrive hdir hname' hslashes hnode nofun⟩
    · rw [walkPieces_enter hdir hname' (by simpa using hslashes) hnode hlink]
      exact ih hspot
  | follow links here piece rest target spot hdir hname hgoes hnode next ih =>
    have hname' : Purpose.newDirectory.Names piece rest := hname.of_ne_newFile nofun
    by_cases hslashes : Purpose.newDirectory.isLast rest = true
    · exact ⟨_, walkPieces_arrive hdir hname' hslashes hnode nofun⟩
    · rw [walkPieces_follow hdir hname' (fun h => absurd h hslashes) hnode]
      exact ih hspot

/-- A walk to a target goes into what is no link, whether the name is the last one or not. -/
theorem walkPieces_target_enter {node : Node} (hdir : disk.node? here = some .directory)
    (hname : Purpose.target.Names piece rest)
    (hnode : disk.node? (here ++ [piece]) = some node) (hlink : ∀ target, node ≠ .link target) :
    disk.walkPieces .target links here (piece :: rest) =
      disk.walkPieces .target links (here ++ [piece]) rest := by
  cases rest with
  | nil => rw [walkPieces_arrive hdir hname rfl hnode fun _ => hlink, walkPieces_nil]
  | cons next more => exact walkPieces_enter hdir hname rfl hnode hlink

/-- What a file to be written leads to is what a file to be read leads to. -/
theorem walkPieces_target_of_newFile {pieces : List (List UInt8)} {place : Place}
    (h : disk.Route .newFile links here pieces (.found place)) :
    disk.walkPieces .target links here pieces = .ok (.found place) := by
  generalize hspot : Spot.found place = spot at h
  induction h with
  | stop links here =>
    cases hspot
    exact walkPieces_nil
  | idle _ _ _ _ _ hdir hidle _ ih =>
    rw [walkPieces_idle hdir hidle]
    exact ih hspot
  | up _ _ _ _ hdir _ ih =>
    rw [walkPieces_up hdir]
    exact ih hspot
  | free => cases hspot
  | arrive links here piece rest node hdir hname hlast hnode hlink =>
    obtain rfl : rest = [] := hname.no_slash rfl hlast
    cases hspot
    exact walkPieces_arrive hdir (hname.of_ne_newFile nofun) rfl hnode hlink
  | enter links here piece rest node spot hdir hname hlast hnode hlink next ih =>
    rw [walkPieces_target_enter hdir (hname.of_ne_newFile nofun) hnode hlink]
    exact ih hspot
  | follow links here piece rest target spot hdir hname hgoes hnode next ih =>
    have hname : Purpose.target.Names piece rest := hname.of_ne_newFile nofun
    rw [walkPieces_follow hdir hname (fun _ => rfl) hnode]
    exact ih hspot

/-- Idle pieces lead nowhere else. -/
theorem walkPieces_of_idle {idle : List (List UInt8)} (hdir : disk.node? here = some .directory)
    (hidle : ∀ piece ∈ idle, Path.isIdle piece = true) :
    disk.walkPieces purpose links here idle = .ok (.found here) := by
  induction idle with
  | nil => exact walkPieces_nil
  | cons piece idle ih =>
    rw [walkPieces_idle hdir (hidle piece List.mem_cons_self)]
    exact ih fun piece h => hidle piece (List.mem_cons_of_mem _ h)

/-- Where a name is looked up there is a directory, which the pieces before the name lead to. Idle
pieces behind them change nothing. -/
theorem walkPieces_init_of_append {pieces : List (List UInt8)} {name : List UInt8}
    {idle : List (List UInt8)} (hidle : ∀ piece ∈ idle, Path.isIdle piece = true)
    (h : disk.Route .target links here (pieces ++ [name]) spot) :
    ∃ dir, disk.walkPieces .target links here (pieces ++ idle) = .ok (.found dir) ∧
      disk.node? dir = some .directory := by
  generalize hall : pieces ++ [name] = all at h
  have hfront {links : Nat} {here : Place} (hdir : disk.node? here = some .directory) :
      ∃ dir, disk.walkPieces .target links here idle = .ok (.found dir) ∧
        disk.node? dir = some .directory := ⟨here, walkPieces_of_idle hdir hidle, hdir⟩
  induction h generalizing pieces with
  | stop => simp at hall
  | idle _ _ _ _ _ hdir hpiece _ ih =>
    cases pieces with
    | nil => exact hfront hdir
    | cons piece pieces =>
      cases hall
      rw [List.cons_append, walkPieces_idle hdir hpiece]
      exact ih rfl
  | up _ _ _ _ hdir _ ih =>
    cases pieces with
    | nil => exact hfront hdir
    | cons piece pieces =>
      cases hall
      rw [List.cons_append, walkPieces_up hdir]
      exact ih rfl
  | free _ _ _ rest hdir _ hlast =>
    cases pieces with
    | nil => exact hfront hdir
    | cons piece pieces =>
      cases hall
      simp [Purpose.isLast] at hlast
  | arrive _ _ _ rest _ hdir _ hlast =>
    cases pieces with
    | nil => exact hfront hdir
    | cons piece pieces =>
      cases hall
      simp [Purpose.isLast] at hlast
  | enter _ _ piece _ _ _ hdir hname _ hnode hlink _ ih =>
    cases pieces with
    | nil => exact hfront hdir
    | cons first pieces =>
      cases hall
      have hname : Purpose.target.Names piece (pieces ++ idle) := hname.of_ne_newFile nofun
      rw [List.cons_append, walkPieces_target_enter hdir hname hnode hlink]
      exact ih rfl
  | follow _ _ piece _ target _ hdir hname _ hnode _ ih =>
    cases pieces with
    | nil => exact hfront hdir
    | cons first pieces =>
      cases hall
      have hname : Purpose.target.Names piece (pieces ++ idle) := hname.of_ne_newFile nofun
      rw [List.cons_append, walkPieces_follow hdir hname (fun _ => rfl) hnode, ← List.append_assoc]
      exact ih (List.append_assoc ..)

/-! ### A file in the place a walk has led to -/

/-- The place that a walk leads to. -/
def Spot.place : Spot → Place
  | .found place | .vacant place => place

/-- A walk goes on from directories only. -/
theorem Route.directory (h : disk.Route purpose links here (piece :: rest) spot) :
    disk.node? here = some .directory := by
  cases h <;> assumption

/-- A walk that follows links to the end does not end at a link, if it starts in a directory that
has directories above it. -/
theorem Route.not_link {pieces : List (List UInt8)} (hfollows : purpose.followsLast = true)
    (h : disk.Route purpose links here pieces spot)
    (habove : ∀ front, front <+: here → disk.node? front = some .directory)
    (target : List UInt8) : disk.node? spot.place ≠ some (.link target) := by
  induction h with
  | stop _ here =>
    have hdir : disk.node? here = some .directory := habove here here.prefix_rfl
    simp [Spot.place, hdir]
  | idle _ _ _ _ _ _ _ _ ih => exact ih habove
  | up _ here _ _ _ _ ih => exact ih fun front h => habove front (h.trans here.dropLast_prefix)
  | free _ _ _ _ _ _ _ hnone => simp [Spot.place, hnone]
  | arrive _ _ _ _ _ _ _ _ hnode hlink =>
    simpa [Spot.place, hnode] using hlink hfollows target
  | enter _ here piece rest _ _ _ _ hlast _ _ next ih =>
    refine ih fun front h => ?_
    rcases List.prefix_concat_iff.1 h with rfl | h
    · cases rest with
      | nil => cases purpose <;> simp [Purpose.isLast] at hlast
      | cons => exact next.directory
    · exact habove front h
  | follow _ here _ _ target _ _ _ _ _ _ ih =>
    refine ih fun front h => ?_
    rw [base] at h
    split at h
    · rw [List.prefix_nil.1 h]
      rfl
    · exact habove front h

/-- One place of a disk has been given to a file. -/
structure FileAt (disk disk' : Disk) (place : Place) : Prop where
  file : ∃ bytes, disk'.node? place = some (.file bytes)
  kept : ∀ q, q ≠ place → disk'.node? q = disk.node? q

theorem ne_root_of_free {place : Place} (h : disk.node? place ≠ some .directory) : place ≠ [] := by
  rintro rfl
  exact h rfl

theorem node?_put_self {place : Place} (h : disk.node? place ≠ some .directory) (node : Node) :
    (disk.put place node).node? place = some node := by
  rw [node?_put (ne_root_of_free h), if_pos rfl]

theorem FileAt.put {place : Place} (h : disk.node? place ≠ some .directory)
    (bytes : List UInt8) : disk.FileAt (disk.put place (.file bytes)) place where
  file := ⟨bytes, node?_put_self h _⟩
  kept q hq := by rw [node?_put (ne_root_of_free h), if_neg hq]

theorem FileAt.directory {disk' : Disk} {place q : Place} (h : disk.FileAt disk' place)
    (hfree : disk.node? place ≠ some .directory) (hq : disk.node? q = some .directory) :
    disk'.node? q = some .directory := by
  rw [h.kept q fun heq => hfree (heq ▸ hq), hq]

/-- A walk that can be made for a later purpose once a file is where the first one ended. -/
def Purpose.Repeats (purpose later : Purpose) : Prop :=
  later = .target ∨ purpose = .entry ∧ later = .entry

theorem Purpose.Repeats.isLast_of_ne_nil {later : Purpose} (h : purpose.Repeats later)
    (hrest : rest ≠ []) : later.isLast rest = false := by
  rcases h with rfl | ⟨-, rfl⟩ <;> simpa [Purpose.isLast] using hrest

theorem Purpose.Repeats.ne_newFile {later : Purpose} (h : purpose.Repeats later) :
    later ≠ .newFile := by
  rcases h with rfl | ⟨-, rfl⟩ <;> nofun

/-- What becomes of a walk that ended at `place` once a file is there: it ends there again, whatever
the file holds, or the way is blocked because the file took the place of a link on it. -/
def EndsAtFile (disk : Disk) (purpose : Purpose) (place : Place) (links : Nat) (here : Place)
    (pieces : List (List UInt8)) : Prop :=
  (∀ disk' later, disk.FileAt disk' place → purpose.Repeats later →
    disk'.walkPieces later links here pieces = .ok (.found place)) ∨
  ((∃ target, disk.node? place = some (.link target)) ∧
    ∀ disk' later, disk.FileAt disk' place → purpose.Repeats later →
      disk'.walkPieces later links here pieces = .error .notADirectory)

variable {place : Place}

theorem EndsAtFile.congr {links' : Nat} {here' : Place} {pieces pieces' : List (List UInt8)}
    (hsame : ∀ disk' later, disk.FileAt disk' place → purpose.Repeats later →
      disk'.walkPieces later links here pieces = disk'.walkPieces later links' here' pieces')
    (h : disk.EndsAtFile purpose place links' here' pieces') :
    disk.EndsAtFile purpose place links here pieces := by
  rcases h with h | ⟨hlink, h⟩
  · exact .inl fun disk' later hdisk hlater =>
      (hsame disk' later hdisk hlater).trans (h disk' later hdisk hlater)
  · exact .inr ⟨hlink, fun disk' later hdisk hlater =>
      (hsame disk' later hdisk hlater).trans (h disk' later hdisk hlater)⟩

/-- A walk that comes to the file with its last name ends there. -/
theorem endsAtFile_last (hfree : disk.node? (here ++ [piece]) ≠ some .directory)
    (hdir : disk.node? here = some .directory) (hname : purpose.Names piece []) :
    disk.EndsAtFile purpose (here ++ [piece]) links here [piece] := by
  refine .inl fun disk' later hdisk hlater => ?_
  obtain ⟨bytes, hbytes⟩ := hdisk.file
  exact walkPieces_arrive (hdisk.directory hfree hdir) (hname.of_ne_newFile hlater.ne_newFile)
    (by cases later <;> rfl) hbytes nofun

/-- A walk that comes to the file earlier is blocked. -/
theorem endsAtFile_blocked {target : List UInt8} (hdir : disk.node? here = some .directory)
    (hname : purpose.Names piece rest) (hrest : rest ≠ [])
    (hlink : disk.node? (here ++ [piece]) = some (.link target)) :
    disk.EndsAtFile purpose (here ++ [piece]) links here (piece :: rest) := by
  refine .inr ⟨⟨target, hlink⟩, fun disk' later hdisk hlater => ?_⟩
  obtain ⟨bytes, hbytes⟩ := hdisk.file
  have hdir' := hdisk.directory (by simp [hlink]) hdir
  rw [walkPieces_enter hdir' (hname.of_ne_newFile hlater.ne_newFile)
    (hlater.isLast_of_ne_nil hrest) hbytes nofun]
  obtain ⟨first, more, rfl⟩ := List.exists_cons_of_ne_nil hrest
  exact walkPieces_of_not_directory (by simp [hbytes])

/-- A file takes the place a walk has led to. Looking for it, or for its entry, then ends at this
place, unless the walk went through a link there. -/
theorem Route.endsAtFile {pieces : List (List UInt8)}
    (h : disk.Route purpose links here pieces spot) (hpurpose : purpose ≠ .newDirectory)
    (hfree : disk.node? spot.place ≠ some .directory) :
    disk.EndsAtFile purpose spot.place links here pieces := by
  have hend {rest : List (List UInt8)} {piece : List UInt8} (hname : purpose.Names piece rest)
      (hlast : purpose.isLast rest = true) : rest = [] := by
    cases purpose with
    | target | entry => simpa [Purpose.isLast] using hlast
    | newFile => exact hname.no_slash rfl hlast
    | newDirectory => exact absurd rfl hpurpose
  induction h with
  | stop => exact .inl fun _ _ _ _ => walkPieces_nil
  | idle _ _ _ _ _ hdir hidle _ ih =>
    exact (ih hfree).congr fun _ _ hdisk _ => walkPieces_idle (hdisk.directory hfree hdir) hidle
  | up _ _ _ _ hdir _ ih =>
    exact (ih hfree).congr fun _ _ hdisk _ => walkPieces_up (hdisk.directory hfree hdir)
  | free _ _ _ _ hdir hname hlast =>
    obtain rfl := hend hname hlast
    exact endsAtFile_last hfree hdir hname
  | arrive _ _ _ _ _ hdir hname hlast =>
    obtain rfl := hend hname hlast
    exact endsAtFile_last hfree hdir hname
  | enter links here piece rest node spot hdir hname hlast hnode hlink next ih =>
    have hrest : rest ≠ [] := by
      rintro rfl
      cases purpose <;> simp [Purpose.isLast] at hlast
    have hplace : here ++ [piece] ≠ spot.place := by
      obtain ⟨first, more, rfl⟩ := List.exists_cons_of_ne_nil hrest
      exact fun hplace => hfree (hplace ▸ next.directory)
    exact (ih hfree).congr fun _ _ hdisk hlater =>
      walkPieces_enter (hdisk.directory hfree hdir) (hname.of_ne_newFile hlater.ne_newFile)
        (hlater.isLast_of_ne_nil hrest) (hdisk.kept _ hplace ▸ hnode) hlink
  | follow links here piece rest target spot hdir hname hgoes hnode next ih =>
    by_cases hplace : here ++ [piece] = spot.place
    · rw [← hplace] at hfree ⊢
      by_cases hrest : rest = []
      · subst hrest
        exact endsAtFile_last hfree hdir hname
      · exact endsAtFile_blocked hdir hname hrest hnode
    · refine (ih hfree).congr fun _ later hdisk hlater => ?_
      have hgoes' : later.isLast rest = true → later.followsLast = true := by
        rcases hlater with rfl | ⟨hentry, rfl⟩
        · exact fun _ => rfl
        · exact hentry ▸ hgoes
      exact walkPieces_follow (hdisk.directory hfree hdir) (hname.of_ne_newFile hlater.ne_newFile)
        hgoes' (hdisk.kept _ hplace ▸ hnode)

end IndexControl.Disk
