import IndexControl.Proofs.Engine.Arrival
import IndexControl.Proofs.Engine.Conformity
import IndexControl.Proofs.Engine.Recovery
import IndexControl.Proofs.Steward.Monitoring

/-!
# What moves do to the monitoring of roots

The flags of a root say whether it is monitored, and they are set when the root is added, be it new
or not. A move that adds configured directories or volumes gives their roots the flags that the
settings ask for. A root that somebody asks for is monitored in any case. All others stay as they
were.

## Main definitions

* `Engine.Carries`: what a part of a move does that brings no root back.
* `Engine.Styled`: how a root has come to be monitored as it is.
* `Engine.Readds`, `Engine.Marks`, `Engine.Returns`: what a move does about the root at a place.

## Main results

* `Engine.Steady.styled_restoreAfter`: roots that are brought back.
* `Engine.Steady.styledBy_step`: what every move does to the monitoring of a root.
-/

namespace IndexControl

open RootSet

namespace Watches

variable {w : Watches} {s : RootSet} {places : List Location} {place q : Location}

/-- A suspended root that is there again, once it has been brought back, is there on demand. -/
theorem isOnDemand_restoreOne (hplace : place.canonical = place)
    (hwaits : w.suspended.contains place = true)
    (hroot : (s.add place .onDemand).1.isRoot place = true) :
    (w.restoreOne s place).1.isOnDemand place = true := by
  obtain ⟨record, hfind⟩ := OrderedMap.contains_iff.1 hwaits
  have hlive : (s.add place .onDemand).2.isLive = true := by
    refine isLive_add_of_isRoot ?_
    rwa [hplace]
  simp only [restoreOne, hfind, hlive, if_true, isOnDemand, OrderedMap.find?_insert]
  rfl

/-- Suspended roots that are there again, once they have been brought back, are there on demand. -/
theorem isOnDemand_restoreEach (hs : s.WellFormed)
    (hcanonical : ∀ place ∈ places, place.IsCanonical) (hnodup : places.Nodup)
    (hwaits : ∀ place ∈ places, w.suspended.contains place = true)
    (hmem : q ∈ places) (hroot : (s.addEach (fun _ => .onDemand) places).isRoot q = true) :
    (w.restoreEach s places).1.isOnDemand q = true := by
  induction places generalizing w s with
  | nil => exact absurd hmem List.not_mem_nil
  | cons place places ih =>
    obtain ⟨hplace, hplaces⟩ := List.forall_mem_cons.1 hcanonical
    obtain ⟨hnew, hnodup⟩ := List.nodup_cons.1 hnodup
    obtain ⟨hwaiting, hwaits⟩ := List.forall_mem_cons.1 hwaits
    have hs' : (w.restoreOne s place).2.1.WellFormed :=
      (restoreOne_cases w s place).1 ▸ hs.add hplace.1 .onDemand
    have hroot : ((w.restoreOne s place).2.1.addEach (fun _ => .onDemand) places).isRoot q = true :=
      (restoreOne_cases w s place).1 ▸ hroot
    rcases List.mem_cons.1 hmem with rfl | hmem
    · -- It has been there since its own turn: nothing that comes later adds it.
      have hlater := hs'.restyles_addEach hplaces fun _ => Flags.contains_monitor_onDemand
      have hone := isOnDemand_restoreOne hplace.2 hwaiting
        ((restoreOne_cases w s q).1 ▸ (hlater.isRoot hroot).resolve_left hnew)
      rw [isOnDemand] at hone ⊢
      exact (congrArg (Option.any _) (find?_restoreEach hnew ..)).trans hone
    · refine ih (w := (w.restoreOne s place).1) hs' hplaces hnodup (fun p hp => ?_) hmem hroot
      rcases (restoreOne_cases w s place).2 with heq | ⟨record, -, -, heq⟩ <;> rw [heq]
      · exact hwaits p hp
      · exact OrderedMap.contains_erase.2 ⟨hwaits p hp, fun heq => hnew (heq ▸ hp)⟩

/-- A request adds a root where it answers so, and that one is monitored. -/
theorem restyles_apply (hs : s.WellFormed) {p : ProbedRequest} {a : Applied}
    (hplace : p.place.IsCanonical) (happly : w.apply s p = .ok a) :
    Restyles (fun q => a.outcome = .rootAdded q) true s a.roots := by
  rcases apply_cases happly with ⟨-, rfl⟩ | ⟨-, owner, -, rfl⟩ | ⟨-, -, -, rfl⟩
  · exact hs.restyles_refl.congr (by simp)
  · obtain ⟨news, hnews, hended⟩ := s.events_notify p.place true
    exact (hs.restyles_of_flagsAt? hnews hended fun _ => rfl).congr (by simp)
  · refine Restyles.congr (A := fun q => p.place.canonical = q)
      (Flags.contains_monitor_onDemand ▸ hs.restyles_add hplace.1 .onDemand) fun q => ?_
    rw [hplace.2, IndexOutcome.rootAdded.injEq]

theorem isOnDemand_of_rootAdded {p : ProbedRequest} {a : Applied} (happly : w.apply s p = .ok a)
    (houtcome : a.outcome = .rootAdded q) : a.watches.isOnDemand q = true := by
  rcases apply_cases happly with ⟨-, rfl⟩ | ⟨-, owner, -, rfl⟩ | ⟨-, -, -, rfl⟩
  · contradiction
  · contradiction
  · obtain rfl := IndexOutcome.rootAdded.inj houtcome
    rw [isOnDemand_credit, isOnDemand_markOnDemand, decide_eq_true rfl, Bool.true_or]

end Watches

namespace Engine

variable {A M R A' M' R' : Location → Prop} {m b : Bool} {e e' e'' : Engine} {q : Location}

/-! ### Parts of moves -/

theorem Undisturbed.monitored? (h : e.Undisturbed e') (q : Location) :
    e'.roots.monitored? q = e.roots.monitored? q := by
  rw [RootSet.monitored?, h.flagsAt?, ← RootSet.monitored?]

theorem isOnDemand_followDirectories :
    e.followDirectories.watches.isOnDemand q = true ↔
      e.watches.isOnDemand q = true ∧ q ∉ e.steward.directories.places := by
  rw [← Steward.map_configured]
  exact Watches.isOnDemand_markStatics

/-- What a part of a move that brings no root back does to the monitoring of roots. At the places of
`A` roots are added anew, monitored where `m` says so. The others have been there before, monitored
as they are, and stay on demand if they were, but for places of `M`. -/
def Carries (A M : Location → Prop) (m : Bool) (e e' : Engine) : Prop :=
  ∀ q b, e'.roots.monitored? q = some b → A q ∧ b = m ∨
    ¬A q ∧ e.roots.monitored? q = some b ∧
      (e.watches.isOnDemand q = true → e'.watches.isOnDemand q = true ∨ M q)

theorem Carries.undisturbed (h : Carries A M m e e') (hsame : e'.Undisturbed e'') :
    Carries A M m e e'' := by
  intro q b hq
  rw [hsame.watches]
  exact h q b (hsame.monitored? q ▸ hq)

theorem carries_dispatch (hquiet : e.roots.events = []) (hroots : Restyles A m e.roots e'.roots)
    (honDemand : ∀ q, e'.roots.isRoot q = true → e.watches.isOnDemand q = true →
      e'.watches.isOnDemand q = true ∨ M q) : Carries A M m e e'.dispatch := by
  intro q b hq
  have hq : e'.roots.monitored? q = some b := hq
  obtain ⟨news, hnews, hall⟩ := hroots.told
  rw [hquiet, List.nil_append] at hnews
  refine (hall q b hq).imp_right fun ⟨hA, hbefore, hended⟩ => ⟨hA, hbefore, fun hmarked => ?_⟩
  have hsame : e'.dispatch.watches.isOnDemand q = e'.watches.isOnDemand q :=
    Watches.isOnDemand_followAll_of_stays (hnews ▸ hended)
  rw [hsame]
  exact honDemand q (isRoot_iff_monitored?.2 ⟨b, hq⟩) hmarked

/-- The end of a requester only removes roots. -/
theorem Steady.carries_letGo (h : e.Steady) (requester : Requester) :
    Carries (fun _ => False) (fun _ => False) m e (e.letGo requester) := by
  refine carries_dispatch h.quiet (h.sound.wellFormed.restyles_removeEach _) fun q hroot hmarked =>
    .inl ((Watches.isOnDemand_release (s := e.roots)).2 ⟨hmarked, fun hfreed => ?_⟩)
  have hcanonical : ∀ place ∈ e.watches.freed requester, place.canonical = place :=
    fun place hplace => (h.sound.attached.canonical place
      (.inl (Watches.contains_of_isOnDemand (Watches.isOnDemand_of_mem_freed hplace)))).2
  have hremoved := flagsAt?_removeEach (s := e.roots) hcanonical q
  rw [if_pos hfreed] at hremoved
  obtain ⟨f, hf⟩ := isRoot_iff_flagsAt?.1 hroot
  exact Option.some_ne_none f (hf.symm.trans hremoved)

/-- Changed settings reach the roots that they add anew. They mark the configured directories where
they touch them, or the restriction of requests to them. -/
theorem Steady.carries_applied (h : e.Steady) (change : SettingsChange) :
    Carries (e.AddedBy change)
      (fun q => (change.touchesDirectories = true ∨ change.touches .requireConfigured = true) ∧
        q ∈ (e.applied change).steward.directories.places)
      e.settings.enableMonitors e (e.applied change) := by
  have hroots := Steward.restyles_applySettings h.canonical h.sound.wellFormed
    (Steward.removablePlaces_of_mounts h.sound.mounts) e.settings change
  rw [← roots_followed, ← steward_followed] at hroots
  refine (carries_dispatch h.quiet hroots fun q _ hmarked => ?_).undisturbed
    (e.undisturbed_applied change)
  have hsteward : (e.applied change).steward = (e.followed change).steward :=
    (e.undisturbed_applied change).steward
  rw [hsteward]
  simp only [followed]
  split
  · next hfollow =>
    rw [Bool.or_eq_true] at hfollow
    rw [isOnDemand_followDirectories]
    by_cases hplace : q ∈ (e.steward.applySettings e.roots e.settings change).1.directories.places
    · exact .inr ⟨hfollow, hplace⟩
    · exact .inl ⟨hmarked, hplace⟩
  · exact .inl hmarked

theorem Steady.carries_handleVolume (h : e.Steady) (event : VolumeEvent) :
    Carries (fun q => ∃ m, event = .mounted m ∧ ∃ place, e.steward.IndexesWith m place ∧
      place.canonical = q) (fun _ => False) e.steward.enableMonitors e (e.handleVolume event) :=
  carries_dispatch h.quiet (Steward.restyles_followVolume h.sound.wellFormed event)
    fun _ _ hmarked => .inl hmarked

/-! ### Roots that are brought back -/

/-- How the root at a place has come to be monitored as it is. It has been added anew, monitored
where `m` says so; it is monitored and there on demand; it is monitored and has been brought back,
which happens where `R` holds; or it was there before, monitored as it is, and stays on demand if it
was, unless `M` holds. In the last case it has not been added anew, so `A` does not hold. -/
inductive Styled (A M R : Prop) (m : Bool) (e e' : Engine) (place : Location) (b : Bool) : Prop
  | set (hb : b = m)
  | asked (hb : b = true) (h : e'.watches.isOnDemand place = true)
  | returned (hb : b = true) (h : R)
  | kept (hbefore : e.roots.monitored? place = some b) (hleft : ¬A)
      (honDemand : e.watches.isOnDemand place = true → e'.watches.isOnDemand place = true ∨ M)

section

variable {A M R A' M' R' : Prop}

theorem Styled.mono (h : Styled A M R m e e' q b) (hA : A' → A) (hM : M → M') (hR : R → R') :
    Styled A' M' R' m e e' q b := by
  cases h with
  | set hb => exact .set hb
  | asked hb h => exact .asked hb h
  | returned hb h => exact .returned hb (hR h)
  | kept hbefore hleft honDemand =>
    exact .kept hbefore (hleft ∘ hA) fun hmarked => (honDemand hmarked).imp_right hM

theorem Styled.undisturbed (h : Styled A M R m e e' q b) (hsame : e'.Undisturbed e'') :
    Styled A M R m e e'' q b := by
  cases h with
  | set hb => exact .set hb
  | asked hb h => exact .asked hb (hsame.watches ▸ h)
  | returned hb h => exact .returned hb h
  | kept hbefore hleft honDemand => exact .kept hbefore hleft (hsame.watches ▸ honDemand)

end

/-- What is there when roots have been brought back, after a part of the move that brings none. -/
theorem Carries.styled (h : Carries A M m e e') {A' M' R' : Prop}
    (h' : Styled A' M' R' m e' e'' q b) : Styled (A q ∨ A') (M q ∨ M') R' m e e'' q b := by
  cases h' with
  | set hb => exact .set hb
  | asked hb h' => exact .asked hb h'
  | returned hb h' => exact .returned hb h'
  | kept hbetween hleft' honDemand' =>
    rcases h q b hbetween with ⟨-, hb⟩ | ⟨hleft, hbefore, honDemand⟩
    · exact .set hb
    · refine .kept hbefore (not_or.2 ⟨hleft, hleft'⟩) fun hmarked => ?_
      rcases honDemand hmarked with hmarked | hM
      · exact (honDemand' hmarked).imp_right .inr
      · exact .inr (.inl hM)

/-- When roots are brought back, the configured ones are added anew and marked, and the suspended
ones come back, on demand unless they are configured. -/
theorem Steady.styled_restoreUncovered (h : e.Steady)
    (hq : e.restoreUncovered.roots.monitored? q = some b) :
    Styled (e.steward.Indexes q) (q ∈ e.steward.directories.places)
      (e.watches.isSuspended q = true ∧ q ∈ e.steward.directories.places ∧
        (e.steward.Indexes q → ¬e.steward.directories.IsFirm q))
      e.steward.enableMonitors e e.restoreUncovered q b := by
  have hrecovered : e.recovered.monitored? q = some b := by
    rwa [← roots_recovering]
  obtain ⟨news, hnews, hsynced⟩ :=
    (Steward.restyles_syncRoots h.canonical h.sound.wellFormed).told
  obtain ⟨news', hnews', hback⟩ := (h.wellFormed_syncRoots.restyles_addEach
    h.isCanonical_of_uncovered fun _ => Flags.contains_monitor_onDemand).told
  have hevents : e.recovered.events = news ++ news' := by
    rw [recovered, hnews', hnews, h.quiet, List.nil_append]
  rcases hback q b hrecovered with ⟨hmem, hb⟩ | ⟨hmem, hbetween, hended'⟩
  · obtain ⟨hwaits, hfree⟩ := mem_uncovered_iff.1 hmem
    by_cases hplace : q ∈ e.steward.directories.places
    · refine .returned hb ⟨hwaits, hplace, fun hindexes hfirm => ?_⟩
      have howned :=
        Steward.isOwned_syncRoots_of_indexes h.canonical h.sound.wellFormed hindexes hfirm
      rw [IsOwned, hfree] at howned
      exact Bool.noConfusion howned
    · refine .asked hb ?_
      rw [watches_restoreUncovered,
        Watches.isOnDemand_followAll_of_stays (h.not_ended_recovered hmem)]
      refine isOnDemand_followDirectories.2 ⟨?_, hplace⟩
      exact Watches.isOnDemand_restoreEach h.wellFormed_syncRoots h.isCanonical_of_uncovered
        ((OrderedMap.nodup_keys _).filter _) (fun place hplace => (mem_uncovered_iff.1 hplace).1)
        hmem (isRoot_iff_monitored?.2 ⟨b, hrecovered⟩)
  · rcases hsynced q b hbetween with ⟨-, hb⟩ | ⟨hleft, hbefore, hended⟩
    · exact .set hb
    · refine .kept hbefore hleft fun hmarked => ?_
      by_cases hplace : q ∈ e.steward.directories.places
      · exact .inr hplace
      · refine .inl ?_
        rw [watches_restoreUncovered, Watches.isOnDemand_followAll_of_stays
          (hevents ▸ List.forall_mem_append.2 ⟨hended, hended'⟩)]
        exact isOnDemand_recovering_of_not_mem hmem hplace hmarked

theorem Steady.styled_restoreAfter (h : e.Steady) {removed : List Location}
    (hq : (e.restoreAfter removed).roots.monitored? q = some b) :
    Styled (removed ≠ [] ∧ e.steward.Indexes q) (removed ≠ [] ∧ q ∈ e.steward.directories.places)
      (removed ≠ [] ∧ e.watches.isSuspended q = true ∧ q ∈ e.steward.directories.places ∧
        (e.steward.Indexes q → ¬e.steward.directories.IsFirm q))
      e.steward.enableMonitors e (e.restoreAfter removed) q b := by
  cases removed with
  | nil => exact .kept hq (fun hsome => hsome.1 rfl) .inl
  | cons place places =>
    have hsome : place :: places ≠ [] := List.cons_ne_nil place places
    exact (h.styled_restoreUncovered hq).mono And.right (.intro hsome) (.intro hsome)

/-! ### Moves -/

theorem Conforms.enableMonitors_eq {environment : Environment} (h : e.Conforms environment) :
    e.steward.enableMonitors = e.settings.enableMonitors :=
  congrArg Steward.enableMonitors h.steward

/-- A move gives the root at a place the flags that the settings ask for. -/
inductive Readds (e : Engine) (move : EngineMove) (place : Location) : Prop
  /-- A volume comes with which the place is indexed. -/
  | brought {m : Mount} {spelled : Location} (hmove : move = .handle (.volume (.mounted m)))
    (h : e.steward.IndexesWith m spelled) (hplace : spelled.canonical = place)
  /-- All configured directories are added anew, and this is one of them. -/
  | resynced (hmove : e.Resyncs move) (h : (e.step move).steward.Indexes place)
  /-- Removable volumes come to be indexed, and there is one at the place. -/
  | enabled {settings : Settings} {spelled : Location} (hmove : move = .adopt settings)
    (hbefore : e.settings.indexRemovable = false) (hafter : settings.indexRemovable = true)
    (h : e.steward.IndexesVolume spelled) (hplace : spelled.canonical = place)

/-- A move marks the configured directories: their roots are there on demand no longer. -/
inductive Marks (e : Engine) : EngineMove → Prop
  | removal {move : EngineMove} (h : e.Removes move) : Marks e move
  | adopt {settings : Settings} {change : SettingsChange}
    (hchange : e.settings.change? settings = some change)
    (h : change.touchesDirectories = true ∨ change.touches .requireConfigured = true) :
    Marks e (.adopt settings)

/-- A move brings back a root on demand at the place of a directory that is configured and still has
no root, so that the root is marked at once. -/
structure Returns (e : Engine) (move : EngineMove) (place : Location) : Prop where
  removes : e.Removes move
  known : e.Knows place
  configured : place ∈ (e.step move).steward.directories.places
  weak : (e.step move).steward.Indexes place →
    ¬(e.step move).steward.directories.IsFirm place

/-- What a move does to the monitoring of the root at a place. -/
abbrev StyledBy (e : Engine) (move : EngineMove) (place : Location) (b : Bool) : Prop :=
  Styled (e.Readds move place)
    (e.Marks move ∧ place ∈ (e.step move).steward.directories.places) (e.Returns move place)
    (e.step move).settings.enableMonitors e (e.step move) place b

theorem styledBy_of_idle (hquiet : e.roots.events = []) {move : EngineMove} (hidle : move.IsIdle)
    (hq : (e.step move).roots.monitored? q = some b) : e.StyledBy move q b := by
  have hsame := undisturbed_step hquiet hidle
  refine .kept (hsame.monitored? q ▸ hq) (fun hreadds => ?_) fun hmarked =>
    .inl (hsame.watches ▸ hmarked)
  rcases hreadds with ⟨rfl, -⟩ | ⟨⟨⟨-⟩ | ⟨-⟩⟩ | ⟨-⟩⟩ | ⟨rfl⟩ <;> exact hidle

theorem Steady.styledBy_release (h : e.Steady) {environment : Environment}
    (hterms : e.Conforms environment) {number : Nat} {requester : Requester}
    (hq : (e.handleRelease number requester).roots.monitored? q = some b) :
    e.StyledBy (.handle (.call number (.release requester))) q b := by
  let move : EngineMove := .handle (.call number (.release requester))
  let removed := (e.watches.release e.roots requester).2.2
  have hletGo := h.letGo requester
  have hanswer : ((e.letGo requester).restoreAfter removed).Undisturbed (e.step move) :=
    (sameView_emit _ rfl).undisturbed rfl
  have hsteward : (e.step move).steward = e.steward := e.steward_handleRelease number requester
  have hsettings : e.steward.enableMonitors = (e.step move).settings.enableMonitors :=
    hterms.enableMonitors_eq.trans (congrArg Settings.enableMonitors (settings_step e rfl).symm)
  have hback := hletGo.styled_restoreAfter (hanswer.monitored? q ▸ hq)
  have hstyled := ((h.carries_letGo requester).styled hback).undisturbed hanswer
  rw [show (e.letGo requester).steward = e.steward from rfl, hsettings, ← hsteward] at hstyled
  refine hstyled.mono (fun hreadds => .inr ?_) ?_ ?_
  · rcases hreadds with ⟨hmove, -⟩ | ⟨⟨⟨hsome⟩⟩, hindexes⟩ | ⟨hmove⟩
    · cases hmove
    · exact ⟨hsome, hindexes⟩
    · cases hmove
  · rintro (hnone | ⟨hsome, hplace⟩)
    · exact hnone.elim
    · exact ⟨.removal (.release hsome), hplace⟩
  · rintro ⟨hsome, hwaits, hplace, hweak⟩
    have hknown := ((h.gains_letGo requester).known q (.inr hwaits)).resolve_right id
    exact ⟨.release hsome, hknown, hplace, hweak⟩

theorem Steady.styledBy_probed (h : e.Steady) {number : Nat} {p : ProbedRequest} (hp : p.IsGenuine)
    (hq : (e.handleProbed number (.ok p)).roots.monitored? q = some b) :
    e.StyledBy (.handle (.probed number (.ok p))) q b := by
  have hanswer : (e.applyProbed p).1.dispatch.Undisturbed
      (e.step (.handle (.probed number (.ok p)))) := (sameView_emit _ rfl).undisturbed rfl
  have hreadds : ¬e.Readds (.handle (.probed number (.ok p))) q := by
    rintro (⟨hmove, -⟩ | ⟨⟨⟨-⟩ | ⟨-⟩⟩⟩ | ⟨hmove⟩)
    · cases hmove
    · cases hmove
  rcases e.applyProbed_cases p with heq | ⟨a, happly, hholdings, -⟩
  · have hsame := undisturbed_dispatch h.quiet
    rw [heq] at hanswer
    refine .kept (hsame.monitored? q ▸ hanswer.monitored? q ▸ hq) hreadds fun hmarked => .inl ?_
    rwa [hanswer.watches, hsame.watches]
  · simp only [holdings, Prod.mk.injEq] at hholdings
    obtain ⟨-, hroots, hwatches⟩ := hholdings
    have hrestyles := Watches.restyles_apply h.sound.wellFormed hp.isCanonical happly
    rw [← hroots] at hrestyles
    have hcarries := carries_dispatch (M := fun _ => False) h.quiet hrestyles fun q _ hmarked =>
      .inl (hwatches ▸ Watches.isOnDemand_apply happly hmarked)
    rcases hcarries q b (hanswer.monitored? q ▸ hq) with ⟨houtcome, hb⟩ | ⟨-, hbefore, honDemand⟩
    · refine .asked hb ?_
      have hstays := Watches.ended?_ne_of_apply h.quiet hp.isCanonical happly
        (congrArg IndexOutcome.root? houtcome)
      have hmarked := Watches.isOnDemand_of_rootAdded happly houtcome
      rw [← Watches.isOnDemand_followAll_of_stays hstays, ← hroots, ← hwatches] at hmarked
      rwa [hanswer.watches]
    · refine .kept hbefore hreadds fun hmarked => .inl ?_
      rw [hanswer.watches]
      exact (honDemand hmarked).resolve_right id

theorem Steady.styledBy_volume (h : e.Steady) {environment : Environment}
    (hterms : e.Conforms environment) {event : VolumeEvent}
    (hq : (e.handleVolume event).roots.monitored? q = some b) :
    e.StyledBy (.handle (.volume event)) q b := by
  rcases h.carries_handleVolume event q b hq with ⟨-, hb⟩ | ⟨hleft, hbefore, honDemand⟩
  · exact .set (hb.trans hterms.enableMonitors_eq)
  · refine .kept hbefore (fun hreadds => hleft ?_) fun hmarked =>
      .inl ((honDemand hmarked).resolve_right id)
    rcases hreadds with ⟨hmove, hindexes, hplace⟩ | ⟨⟨⟨-⟩ | ⟨-⟩⟩⟩ | ⟨hmove⟩
    · cases hmove
      exact ⟨_, rfl, _, hindexes, hplace⟩
    · cases hmove

/-- What changed settings add at first, and what they add when roots are brought back. -/
theorem addedBy_or_indexes_of_readds {settings : Settings} {change : SettingsChange}
    (hchange : e.settings.change? settings = some change)
    (h : e.Readds (.adopt settings) q) :
    AddedBy { e with settings } change q ∨ removedBy { e with settings } change ≠ [] ∧
      (e.adopt settings).steward.Indexes q := by
  have hsteward : (e.adopt settings).steward = (followed { e with settings } change).steward := by
    rw [adopt_of_some hchange, steward_applyChange]
  rcases h with ⟨hmove⟩ | ⟨hresyncs, hindexes⟩ | ⟨hmove, hbefore, hafter, hvolume, hplace⟩
  · cases hmove
  · rcases hresyncs with ⟨⟨⟩ | ⟨hchange', hsome⟩⟩ | ⟨hchange', htouched⟩
    · obtain rfl := Option.some.inj (hchange.symm.trans hchange')
      exact .inr ⟨hsome, hindexes⟩
    · obtain rfl := Option.some.inj (hchange.symm.trans hchange')
      exact .inl (.inl ⟨htouched, hsteward ▸ hindexes⟩)
  · cases hmove
    obtain rfl := Settings.change?_eq_some hchange
    refine .inl (.inr ⟨?_, hafter, _, hvolume, hplace⟩)
    rw [Settings.touches_changedKeys]
    simp [SettingsKey.differs, hbefore, hafter]

/-- What changed settings leave suspended was known before. -/
theorem Steady.knows_of_applied (h : e.Steady) {change : SettingsChange}
    (hq : (e.applied change).watches.isSuspended q = true) : e.Knows q := by
  rw [(e.undisturbed_applied change).watches] at hq
  rcases Watches.contains_suspended_of_followAll hq with hwaits | hrecord
  · rw [suspended_followed] at hwaits
    exact .inr hwaits
  · refine .inl (h.isRoot ?_)
    simp only [followed] at hrecord
    split at hrecord
    · exact (Watches.contains_markStatics ..).symm.trans hrecord
    · exact hrecord

theorem Steady.styledBy_adopt (h : e.Steady) {settings : Settings}
    (hq : (e.adopt settings).roots.monitored? q = some b) : e.StyledBy (.adopt settings) q b := by
  cases hchange : e.settings.change? settings with
  | none =>
    have hsame : e.step (.adopt settings) = e := adopt_of_none hchange
    refine .kept (hsame ▸ hq) ?_ fun hmarked => .inl (by rwa [hsame])
    rintro (⟨hmove⟩ | ⟨⟨⟨⟩ | ⟨hchange', -⟩⟩ | ⟨hchange', -⟩, -⟩ | ⟨hmove, hbefore, hafter⟩)
    · cases hmove
    · rw [hchange] at hchange'
      contradiction
    · rw [hchange] at hchange'
      contradiction
    · cases hmove
      have hagree := (Settings.change?_eq_none_iff.1 hchange).indexRemovable
      rw [hbefore, hafter] at hagree
      contradiction
  | some change =>
    let e₀ : Engine := { e with settings }
    have h₀ : e₀.Steady := h.with_settings settings
    have hadopt : e.step (.adopt settings) = e₀.applyChange change := adopt_of_some hchange
    have hafter := e₀.undisturbed_applyChange change
    have hbetween := e₀.undisturbed_applied change
    have hsteward : (e₀.applied change).steward = (e.step (.adopt settings)).steward := by
      rw [hadopt, steward_applyChange]
      exact hbetween.steward
    have hsettings : (e.step (.adopt settings)).settings = e₀.settings := by
      rw [hadopt, settings_applyChange]
    have hmonitors : (e₀.applied change).steward.enableMonitors = e₀.settings.enableMonitors := by
      rw [hsteward, hadopt, steward_applyChange, steward_followed]
      exact Steward.enableMonitors_applySettings ..
    rw [← hadopt] at hafter
    have hback := (h₀.applied change).styled_restoreAfter (hafter.monitored? q ▸ hq)
    rw [hmonitors] at hback
    have hcarries : Carries (e₀.AddedBy change) _ e₀.settings.enableMonitors e
        (e₀.applied change) := h₀.carries_applied change
    have hstyled := (hcarries.styled hback).undisturbed hafter
    rw [hsteward, ← hsettings] at hstyled
    refine hstyled.mono (addedBy_or_indexes_of_readds hchange) ?_ ?_
    · rintro (⟨htouched, hplace⟩ | ⟨hsome, hplace⟩)
      · exact ⟨.adopt hchange htouched, hplace⟩
      · exact ⟨.removal (.adopt hchange hsome), hplace⟩
    · rintro ⟨hsome, hwaits, hplace, hweak⟩
      exact ⟨.adopt hchange hsome, h₀.knows_of_applied hwaits, hplace, hweak⟩

/-- **What a move does to the monitoring of a root.** The root has been added anew, and is monitored
as the settings ask for; it is monitored and there on demand; it is monitored and has been brought
back and marked at once; or it is monitored as it was, and is there on demand if it was, unless the
move has marked it. -/
theorem Steady.styledBy_step (h : e.Steady) {environment : Environment}
    (hterms : e.Conforms environment) {move : EngineMove} (hmove : move.IsGenuine)
    (hq : (e.step move).roots.monitored? q = some b) : e.StyledBy move q b := by
  rcases move.kinds with hidle | ⟨number, requester, rfl⟩ | ⟨number, p, rfl⟩ | ⟨settings, rfl⟩ |
    ⟨event, rfl⟩
  · exact styledBy_of_idle h.quiet hidle hq
  · exact h.styledBy_release hterms hq
  · exact h.styledBy_probed hmove hq
  · exact h.styledBy_adopt hq
  · exact h.styledBy_volume hterms hq

end Engine

end IndexControl
