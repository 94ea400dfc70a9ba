import IndexControl.Proofs.Roots.Edits
import IndexControl.Steward.Changes

/-!
# Which roots are monitored

A root that is added is monitored as its flags say, also if it was there before. All other roots
that are left stay as they were, and they have not gone in between.

## Main definitions

* `RootSet.monitored?`: whether the root at a place is monitored.
* `RootSet.Restyles`: roots are added anew at places of one kind, with or without monitoring.

## Main results

* `RootSet.Restyles.trans`: what is done in order.
* `RootSet.WellFormed.restyles_add`, `RootSet.WellFormed.restyles_remove`,
  `RootSet.WellFormed.restyles_removeAs`, `RootSet.WellFormed.restyles_foldl`: single operations,
  and those on lists.
-/

namespace IndexControl

namespace RootSet

variable {A B : Location → Prop} {m : Bool} {s s' s'' : RootSet} {place q : Location}

/-- Whether the root at a place is monitored, if there is one. -/
def monitored? (s : RootSet) (place : Location) : Option Bool :=
  (s.flagsAt? place).map (·.contains .monitor)

theorem monitored?_eq_some_iff {b : Bool} :
    s.monitored? q = some b ↔ ∃ f, s.flagsAt? q = some f ∧ f.contains .monitor = b :=
  Option.map_eq_some_iff

theorem isRoot_iff_monitored? : s.isRoot q = true ↔ ∃ b, s.monitored? q = some b := by
  rw [isRoot_iff_flagsAt?, monitored?]
  cases s.flagsAt? q <;> simp

/-- At the places of `A` roots are added anew, monitored where `m` says so. The other roots that are
left were there before, have been all the time, and are monitored as they were. -/
structure Restyles (A : Location → Prop) (m : Bool) (s s' : RootSet) : Prop where
  wellFormed : s'.WellFormed
  told : ∃ news, s'.events = s.events ++ news ∧ ∀ q b, s'.monitored? q = some b →
    A q ∧ b = m ∨
      ¬A q ∧ s.monitored? q = some b ∧ ∀ event ∈ news, event.ended? ≠ some q

theorem Restyles.congr (h : Restyles A m s s') (hAB : ∀ q, A q ↔ B q) : Restyles B m s s' := by
  rwa [show B = A from funext fun q => propext (hAB q).symm]

/-- A root that is new has been added. -/
theorem Restyles.isRoot (h : Restyles A m s s') (hq : s'.isRoot q = true) :
    A q ∨ s.isRoot q = true := by
  obtain ⟨b, hb⟩ := isRoot_iff_monitored?.1 hq
  obtain ⟨news, -, hall⟩ := h.told
  exact (hall q b hb).imp And.left fun hold => isRoot_iff_monitored?.2 ⟨b, hold.2.1⟩

theorem Restyles.trans (h : Restyles A m s s') (h' : Restyles B m s' s'') :
    Restyles (fun q => A q ∨ B q) m s s'' where
  wellFormed := h'.wellFormed
  told := by
    obtain ⟨news, hnews, hearlier⟩ := h.told
    obtain ⟨news', hnews', hlater⟩ := h'.told
    refine ⟨news ++ news', by rw [hnews', hnews, List.append_assoc], fun q b hq => ?_⟩
    rcases hlater q b hq with ⟨hB, hb⟩ | ⟨hB, hq, hended'⟩
    · exact .inl ⟨.inr hB, hb⟩
    · rcases hearlier q b hq with ⟨hA, hb⟩ | ⟨hA, hq, hended⟩
      · exact .inl ⟨.inl hA, hb⟩
      · exact .inr ⟨not_or.2 ⟨hA, hB⟩, hq, List.forall_mem_append.2 ⟨hended, hended'⟩⟩

/-- Nothing is done to the roots themselves. -/
theorem WellFormed.restyles_of_flagsAt? (h : s.WellFormed) {news : List RootEvent}
    (hnews : s'.events = s.events ++ news) (hended : ∀ event ∈ news, event.ended? = none)
    (hflags : ∀ q, s'.flagsAt? q = s.flagsAt? q) : Restyles (fun _ => False) m s s' where
  wellFormed := h.of_flagsAt?_imp fun q f hf => (hflags q).symm.trans hf
  told := by
    refine ⟨news, hnews, fun q b hq => .inr ⟨id, ?_, fun event hevent => ?_⟩⟩
    · rwa [monitored?, ← hflags]
    · rw [hended event hevent]
      exact (Option.some_ne_none q).symm

theorem WellFormed.restyles_refl (h : s.WellFormed) : Restyles (fun _ => False) m s s :=
  h.restyles_of_flagsAt? (List.append_nil _).symm (fun _ hevent => absurd hevent List.not_mem_nil)
    fun _ => rfl

/-! ### Single operations -/

theorem WellFormed.restyles_add (h : s.WellFormed) (hplace : place.IsSpelled) (flags : Flags) :
    Restyles (fun q => place.canonical = q) (flags.contains .monitor) s (s.add place flags).1 := by
  have hc := Location.isCanonical_canonical hplace
  rw [← add_canonical]
  generalize place.canonical = c at hc ⊢
  obtain ⟨news, hnews, -⟩ := s.events_add c flags
  refine ⟨h.add hc.1 flags, news, hnews, fun q b hq => ?_⟩
  have hended := h.not_ended_add hc hnews (isRoot_iff_monitored?.2 ⟨b, hq⟩)
  obtain ⟨f, hf, rfl⟩ := monitored?_eq_some_iff.1 hq
  rw [flagsAt?_add h hc.2] at hf
  by_cases hself : c = q
  · subst hself
    rw [if_pos rfl] at hf
    split_ifs at hf with hcovered
    · -- A place below a recursive root has no root.
      obtain ⟨above, habove, hbelow⟩ := h.recursiveAbove?_isSome_iff.1 hcovered
      rw [h.flagsAt?_eq_none habove hbelow] at hf
      contradiction
    · exact .inl ⟨rfl, by rw [Option.some.inj hf]⟩
  · have hold : s.flagsAt? q = some f := by
      split_ifs at hf with hcovered hq
      · exact hf
      · exact absurd hq.symm hself
      · exact hf
    exact .inr ⟨hself, monitored?_eq_some_iff.2 ⟨f, hold, rfl⟩, hended⟩

theorem WellFormed.restyles_remove (h : s.WellFormed) (place : Location) :
    Restyles (fun _ => False) m s (s.remove place).1 := by
  cases hroot : s.root? place.canonical with
  | none =>
    have hsame : (s.remove place).1 = s := by
      rw [RootSet.remove]
      simp only [hroot]
    rw [hsame]
    exact h.restyles_refl
  | some root =>
    have hevents : (s.remove place).1.events =
        s.events ++ [.removed place.canonical root.flags] := by
      rw [RootSet.remove]
      simp only [hroot]
    refine ⟨h.remove place, _, hevents, fun q b hq => .inr ⟨id, ?_⟩⟩
    rw [monitored?, flagsAt?_remove] at hq
    split_ifs at hq with hself
    · contradiction
    · refine ⟨hq, fun event hevent hended => ?_⟩
      rw [List.mem_singleton.1 hevent] at hended
      exact hself (Option.some.inj hended).symm

/-- A root that is given other flags before it goes takes them along. -/
theorem WellFormed.restyles_removeAs (h : s.WellFormed) (f : Flags → Flags) (place : Location) :
    Restyles (fun _ => False) m s (s.removeAs f place) := by
  rw [removeAs]
  cases hroot : s.root? place with
  | none => exact h.restyles_refl
  | some root =>
    have hplace := h.canonical place (isRoot_iff.2 ⟨root, hroot⟩)
    have hadd := h.restyles_add hplace.1 (f root.flags)
    have hremove := hadd.wellFormed.restyles_remove (m := (f root.flags).contains .monitor) place
    obtain ⟨hwellFormed, news, hnews, hall⟩ := hadd.trans hremove
    refine ⟨hwellFormed, news, hnews, fun q b hq => .inr ⟨id, ?_⟩⟩
    rcases hall q b hq with ⟨rfl | hfalse, -⟩ | ⟨-, hold⟩
    · rw [monitored?, flagsAt?_remove, if_pos rfl] at hq
      contradiction
    · exact hfalse.elim
    · exact hold

/-! ### Operations on lists -/

theorem WellFormed.restyles_foldl {α : Type} {f : RootSet → α → RootSet} {A : α → Location → Prop}
    {l : List α} (hstep : ∀ s, s.WellFormed → ∀ a ∈ l, Restyles (A a) m s (f s a))
    (h : s.WellFormed) : Restyles (fun q => ∃ a ∈ l, A a q) m s (l.foldl f s) := by
  induction l generalizing s with
  | nil => exact h.restyles_refl.congr (by simp)
  | cons a l ih =>
    have hfirst := hstep s h a List.mem_cons_self
    have hrest := ih (fun s hs b hb => hstep s hs b (List.mem_cons_of_mem a hb)) hfirst.wellFormed
    exact (hfirst.trans hrest).congr (by simp)

theorem WellFormed.restyles_addEach (h : s.WellFormed) {flags : Location → Flags}
    {places : List Location} (hplaces : ∀ place ∈ places, place.IsCanonical)
    (hflags : ∀ place, (flags place).contains .monitor = m) :
    Restyles (· ∈ places) m s (s.addEach flags places) := by
  have hall := h.restyles_foldl (l := places) fun s hs place hplace =>
    hflags place ▸ hs.restyles_add (hplaces place hplace).1 (flags place)
  refine hall.congr fun q => ⟨?_, fun hq => ⟨q, hq, (hplaces q hq).2⟩⟩
  rintro ⟨place, hplace, rfl⟩
  rwa [(hplaces place hplace).2]

theorem WellFormed.restyles_foldl_removeAs (h : s.WellFormed) (f : Flags → Flags)
    (places : List Location) :
    Restyles (fun _ => False) m s (places.foldl (fun s place => s.removeAs f place) s) :=
  (h.restyles_foldl fun _ hs place _ => hs.restyles_removeAs f place).congr (by simp)

theorem WellFormed.restyles_removeEach (h : s.WellFormed) (places : List Location) :
    Restyles (fun _ => False) m s (s.removeEach places).1 := by
  induction places generalizing s with
  | nil => exact h.restyles_refl
  | cons place places ih =>
    exact ((h.restyles_remove place).trans (ih (h.remove place))).congr (by simp)

end RootSet

end IndexControl
