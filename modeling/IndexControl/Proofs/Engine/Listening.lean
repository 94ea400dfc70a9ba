import IndexControl.Engine.Listening
import IndexControl.Proofs.Engine.Conformity

/-!
# No change of the settings is missed

Announcements only wake the engine: it takes over the settings that it finds when it looks, whatever
it has read and however many announcements it has missed. So it is enough that something is there to
be read as long as the engine has not taken over the live settings.

## Main definitions

* `Listening.Hears`: the engine has the live settings or will learn that it has not.

## Main results

* `SettingsFeed.update_eq`: an update is announced exactly if it changes something.
* `Listening.Hears.step`: nothing that happens leaves the engine behind unawares.
* `Listening.run_hears`: changes made and read in any order.
-/

namespace IndexControl

namespace SettingsFeed

variable {feed : SettingsFeed} {settings : Settings}

theorem replace_of_agree (h : feed.settings.Agree settings) :
    feed.replace settings = (feed, none) := by
  rw [replace, Settings.change?_eq_none_iff.2 h]

theorem replace_of_not_agree (h : ¬feed.settings.Agree settings) :
    feed.replace settings =
      ({ feed with settings }, some ⟨feed.settings.changedKeys settings⟩) := by
  cases hchange : feed.settings.change? settings with
  | none => exact absurd (Settings.change?_eq_none_iff.1 hchange) h
  | some change =>
    obtain rfl := Settings.change?_eq_some hchange
    simp only [replace, hchange]

/-- An update that changes something replaces the settings and announces what has changed. Another
one does nothing. -/
theorem update_eq (feed : SettingsFeed) (settings : Settings) :
    feed.update settings =
      if feed.settings.Agree settings then (feed, none)
      else
        let change : SettingsChange := ⟨feed.settings.changedKeys settings⟩
        (⟨settings, feed.announced ++ [change]⟩, some change) := by
  rw [update]
  split_ifs with hagree
  · rw [replace_of_agree hagree]
  · rw [replace_of_not_agree hagree]
    rfl

/-- Whether there is news decides whether a reader comes back with something. -/
theorem hasNews_iff (feed : SettingsFeed) (seen : Nat) :
    feed.hasNews seen = true ↔ (feed.receive seen).1 ≠ .empty := by
  rw [hasNews, decide_eq_true_eq, receive]
  split
  · next hlagged =>
    have hlt : seen < feed.announced.length := hlagged.trans_le (Nat.sub_le ..)
    exact ⟨fun _ h => Received.noConfusion h, fun _ => hlt⟩
  · split
    · next change hchange =>
      have hlt := (List.getElem?_eq_some_iff.1 hchange).1
      exact ⟨fun _ h => Received.noConfusion h, fun _ => hlt⟩
    · next hnone =>
      have hle := List.getElem?_eq_none_iff.1 hnone
      exact ⟨fun hlt => absurd hle hlt.not_ge, fun h => absurd rfl h⟩

/-- A reader never comes to be ahead of the announcements. -/
theorem receive_le {seen : Nat} (h : seen ≤ feed.announced.length) :
    (feed.receive seen).2 ≤ feed.announced.length := by
  rw [receive]
  split
  · exact Nat.sub_le ..
  · split
    · next change hchange => exact (List.getElem?_eq_some_iff.1 hchange).1
    · exact h

end SettingsFeed

namespace Listening

variable {l : Listening}

/-- The engine has the live settings, or it will learn that it has not: there is something to be
read, or it has read something, or a call has yet to announce what it has replaced. -/
structure Hears (l : Listening) : Prop where
  seen_le : l.seen ≤ l.feed.announced.length
  agree_or : l.engine.settings.Agree l.feed.settings ∨ l.feed.hasNews l.seen = true ∨
    l.isAlert = true ∨ ∃ change, .replaced change ∈ l.calls

theorem hears_launch (buffered : Settings) (feed : SettingsFeed) (calls : List SettingsCall)
    (environment : Environment) (systemLocations : List Location) (disk : Disk) :
    (launch buffered feed calls environment systemLocations disk).Hears where
  seen_le := le_refl feed.announced.length
  agree_or := by
    refine .inl ?_
    rw [launch, Engine.settings_start]
    exact .refl feed.settings

/-- Calls that begin change nothing. -/
theorem Hears.begin (h : l.Hears) (settings : Settings) :
    Hears { l with calls := l.calls ++ [.begun settings] } :=
  ⟨h.seen_le, h.agree_or.imp_right <| .imp_right <| .imp_right fun ⟨change, hchange⟩ =>
    ⟨change, List.mem_append_left _ hchange⟩⟩

/-- A call that has yet to announce something is still there when another one has returned. -/
theorem mem_eraseIdx_of_begun {calls : List SettingsCall} {call : Nat} {settings : Settings}
    {change : SettingsChange} (hbegun : calls[call]? = some (.begun settings))
    (h : .replaced change ∈ calls) : .replaced change ∈ calls.eraseIdx call := by
  obtain ⟨i, hi⟩ := List.mem_iff_getElem?.1 h
  have hne : i ≠ call := by
    rintro rfl
    rw [hbegun] at hi
    exact SettingsCall.noConfusion (Option.some.inj hi)
  exact List.mem_eraseIdx_iff_getElem?.2 ⟨i, hne, hi⟩

theorem Hears.replace (h : l.Hears) (call : Nat) : (l.replace call).Hears := by
  rw [Listening.replace]
  split
  · next settings hbegun =>
    by_cases hagree : l.feed.settings.Agree settings
    · rw [SettingsFeed.replace_of_agree hagree]
      exact ⟨h.seen_le, h.agree_or.imp_right <| .imp_right <| .imp_right fun ⟨change, hchange⟩ =>
        ⟨change, mem_eraseIdx_of_begun hbegun hchange⟩⟩
    · rw [SettingsFeed.replace_of_not_agree hagree]
      obtain ⟨hlt, -⟩ := List.getElem?_eq_some_iff.1 hbegun
      -- The engine may be behind now, and this call is going to say so.
      exact ⟨h.seen_le, .inr (.inr (.inr ⟨_, List.mem_set hlt _⟩))⟩
  · exact h

theorem Hears.announce (h : l.Hears) (call : Nat) : (l.announce call).Hears := by
  rw [Listening.announce]
  split
  · next change hreplaced =>
    have hlength : (l.feed.announce change).announced.length = l.feed.announced.length + 1 :=
      List.length_append
    constructor
    case seen_le => exact hlength ▸ Nat.le_succ_of_le h.seen_le
    case agree_or =>
      refine .inr (.inl ?_)
      rw [SettingsFeed.hasNews, decide_eq_true_eq, hlength]
      exact Nat.lt_succ_of_le h.seen_le
  · exact h

theorem Hears.receive (h : l.Hears) : l.receive.Hears := by
  rw [Listening.receive]
  split
  · exact ⟨SettingsFeed.receive_le h.seen_le, .inr (.inr (.inl rfl))⟩
  · exact h

/-- An engine that looks takes over the live settings. -/
theorem agree_look (h : l.isAlert = true) :
    l.look.engine.settings.Agree l.feed.settings ∧ l.look.feed = l.feed := by
  rw [look, if_pos h]
  exact ⟨l.engine.settings_adopt_agree l.feed.settings, rfl⟩

theorem Hears.look (h : l.Hears) : l.look.Hears := by
  by_cases halert : l.isAlert = true
  · obtain ⟨hagree, hfeed⟩ := agree_look halert
    refine ⟨?_, .inl (hfeed ▸ hagree)⟩
    rw [Listening.look, if_pos halert]
    exact h.seen_le
  · rwa [Listening.look, if_neg halert]

/-- What else the engine does leaves its settings alone. -/
theorem Hears.advance (h : l.Hears) (move : Engine → Engine)
    (hmove : (move l.engine).settings = l.engine.settings) : (l.advance move).Hears := by
  rw [Listening.advance]
  split
  · exact h
  · exact ⟨h.seen_le, by simpa only [hmove] using h.agree_or⟩

/-- Nothing that happens leaves the engine behind unawares. -/
theorem Hears.step (h : l.Hears) (move : ListeningMove) : (l.step move).Hears := by
  cases move with
  | update settings => exact h.begin settings
  | modify edit => exact h.begin (edit l.feed.settings)
  | replace call => exact h.replace call
  | announce call => exact h.announce call
  | receive =>
    simp only [Listening.step]
    split
    · exact h
    · exact h.receive
  | look => exact h.look
  | handle event => exact h.advance (·.handle event) (l.engine.settings_handle event)
  | finishBatch completion =>
    exact h.advance (·.finishBatch completion) (l.engine.sameTerms_finishBatch completion).settings
  | tick => exact h.advance Engine.tick (l.engine.sameTerms_flush _ none).settings

theorem Hears.run (h : l.Hears) (moves : List ListeningMove) : (l.run moves).Hears := by
  induction moves generalizing l with
  | nil => exact h
  | cons move moves ih => exact ih (h.step move)

/-- **No change of the settings is missed.** Calls replace and edit the live settings in any order
while the engine reads announcements and does its other work, and some calls may have begun before
its start. As long as the settings that the engine has are not the live ones, there is something to
be read, or the engine has read something and not looked yet, or a call has replaced the settings
and announces that next. So where no call and no look of the engine is half done, there is something
to be read. When the engine looks, whatever it has read, it has the live settings of that moment. An
update replaces the settings and is announced exactly if it changes them in some respect. -/
theorem run_hears (buffered : Settings) (feed : SettingsFeed) (calls : List SettingsCall)
    (environment : Environment) (systemLocations : List Location) (disk : Disk)
    (moves : List ListeningMove) :
    let l := (launch buffered feed calls environment systemLocations disk).run moves
    (¬l.engine.settings.Agree l.feed.settings →
        (l.feed.receive l.seen).1 ≠ .empty ∨ l.isAlert = true ∨
          ∃ change, .replaced change ∈ l.calls) ∧
      ((∀ call ∈ l.calls, ∃ settings, call = .begun settings) → l.isAlert = false →
        ¬l.engine.settings.Agree l.feed.settings → (l.feed.receive l.seen).1 ≠ .empty) ∧
      (l.isAlert = true →
        l.look.engine.settings.Agree l.feed.settings ∧ l.look.feed = l.feed) ∧
      ∀ settings, l.feed.update settings =
        if l.feed.settings.Agree settings then (l.feed, none)
        else
          let change : SettingsChange := ⟨l.feed.settings.changedKeys settings⟩
          (⟨settings, l.feed.announced ++ [change]⟩, some change) := by
  intro l
  have h : l.Hears :=
    (hears_launch buffered feed calls environment systemLocations disk).run moves
  have hbehind (hdiffer : ¬l.engine.settings.Agree l.feed.settings) :=
    (h.agree_or.resolve_left hdiffer).imp_left (l.feed.hasNews_iff l.seen).1
  refine ⟨hbehind, fun hcalls hidle hdiffer => ?_, agree_look, l.feed.update_eq⟩
  rcases hbehind hdiffer with hnews | halert | ⟨change, hreplaced⟩
  · exact hnews
  · exact absurd (hidle.symm.trans halert) Bool.false_ne_true
  · obtain ⟨settings, hbegun⟩ := hcalls _ hreplaced
    exact SettingsCall.noConfusion hbegun

/-- An engine that has slept through more announcements than are kept reads that it has missed one,
and has the live settings when it has looked. -/
theorem run_hears_lagged :
    let nowhere : Environment := ⟨fun _ => none, none, fun _ => none, fun _ => false⟩
    let settings : Settings := ⟨[], [], [], [], [], false, false, false, false, 0, 0, none⟩
    let flip : List ListeningMove :=
      [.modify fun s => { s with filterHidden := !s.filterHidden }, .replace 0, .announce 0]
    let flips := (List.replicate 65 flip).flatten
    let before := launch settings (.ofSettings settings) [] nowhere [] default
    let asleep := before.run flips
    let woken := before.run (flips ++ [.receive])
    asleep.calls = [] ∧ asleep.isAlert = false ∧
      ¬asleep.engine.settings.Agree asleep.feed.settings ∧
      (asleep.feed.receive asleep.seen).1 ≠ .empty ∧
      (asleep.feed.receive asleep.seen).1 = .lagged 1 ∧
      woken.isAlert = true ∧ ¬woken.engine.settings.Agree woken.feed.settings ∧
      woken.look.engine.settings.Agree woken.feed.settings := by
  intro nowhere settings flip flips before asleep woken
  have hcalls : asleep.calls = [] := List.isEmpty_iff.1 (by decide +kernel)
  have hnone : ∀ call ∈ asleep.calls, ∃ settings, call = .begun settings := by
    rw [hcalls]
    exact fun call h => absurd h List.not_mem_nil
  have hidle : asleep.isAlert = false := by decide +kernel
  have hdiffer : ¬asleep.engine.settings.Agree asleep.feed.settings := by decide +kernel
  have halert : woken.isAlert = true := by decide +kernel
  have hnews (moves : List ListeningMove) {l : Listening} (hl : before.run moves = l)
      (hnone : ∀ call ∈ l.calls, ∃ settings, call = .begun settings) (hidle : l.isAlert = false)
      (hdiffer : ¬l.engine.settings.Agree l.feed.settings) :
      (l.feed.receive l.seen).1 ≠ .empty := by
    subst hl
    exact (run_hears settings (.ofSettings settings) [] nowhere [] default moves).2.1 hnone hidle
      hdiffer
  have hlook (moves : List ListeningMove) {l : Listening} (hl : before.run moves = l)
      (halert : l.isAlert = true) : l.look.engine.settings.Agree l.feed.settings := by
    subst hl
    exact ((run_hears settings (.ofSettings settings) [] nowhere [] default moves).2.2.1 halert).1
  exact ⟨hcalls, hidle, hdiffer, hnews flips rfl hnone hidle hdiffer, by decide +kernel, halert,
    by decide +kernel, hlook _ rfl halert⟩

end Listening

end IndexControl
