import IndexControl.Proofs.Json.Words
import IndexControl.Proofs.Optional
import IndexControl.Settings.Json

/-!
# Settings that are read as they were written

What is written of settings is the text of one JSON object, and reading it puts every setting back
to its value, whatever the defaults are: strings of any characters, numbers of 64 bits, and the
state directory, if there is one.

## Main definitions

* `Json.Means`: some words are read as a value.
* `Json.Writes`: some characters spell such words.
* `Settings.takeOver`: one setting of others.

## Main results

* `Json.means_array`, `Json.means_object`: arrays and objects of what is read.
* `Settings.writes_value`: the written form of each setting.
* `Settings.ofText?_render`: settings are read back.
* `Settings.render?_eq_none_iff`: which settings cannot be written.
-/

namespace IndexControl

namespace Json

/-! ### Values of words -/

/-- Some words lead from one point of a reading to another. -/
def Leads (r : Reading) (words : List Token) (r' : Reading) : Prop :=
  words.foldlM step? r = some r'

theorem Leads.nil (r : Reading) : Leads r [] r := rfl

theorem Leads.cons {r r' r'' : Reading} {word : Token} {words : List Token}
    (hword : step? r word = some r') (h : Leads r' words r'') : Leads r (word :: words) r'' := by
  rw [Leads, List.foldlM_cons, hword]
  exact h

theorem Leads.append {r r' r'' : Reading} {words words' : List Token} (h : Leads r words r')
    (h' : Leads r' words' r'') : Leads r (words ++ words') r'' := by
  rw [Leads, List.foldlM_append, show words.foldlM step? r = some r' from h]
  exact h'

/-- Some words are read as a value wherever one is expected. -/
def Means (words : List Token) (value : Json) : Prop :=
  ∀ frames, Leads ⟨frames, .value⟩ words (.complete value frames)

theorem means_null : Means [.null] .null := fun _ => rfl

theorem means_bool (b : Bool) : Means [.bool b] (.bool b) := fun _ => rfl

theorem means_number (n : Option Nat) : Means [.number n] (.number n) := fun _ => rfl

theorem means_string (text : Option String) : Means [.string text] (.string text) := fun _ => rfl

/-- Words with commas between them. -/
def commaWords : List (List Token) → List Token
  | [] => []
  | words :: more => words ++ more.flatMap (.comma :: ·)

/-- Where a list may end at once, a value can begin all the same. -/
theorem Means.valueOrEnd {words : List Token} {value : Json} (h : Means words value)
    (frames : List Frame) : Leads ⟨frames, .valueOrEnd⟩ words (.complete value frames) := by
  cases words with
  | nil => cases h []
  | cons word words =>
    cases word with
    | closeBracket => cases h frames
    | _ => exact h frames

/-- The items of an array behind the first one. -/
theorem leads_items {parts : List (List Token × Json)} (h : ∀ p ∈ parts, Means p.1 p.2)
    (frames : List Frame) (items : List Json) :
    Leads ⟨.array items :: frames, .separator⟩ (parts.flatMap fun p => .comma :: p.1)
      ⟨.array ((parts.map (·.2)).reverse ++ items) :: frames, .separator⟩ := by
  induction parts generalizing items with
  | nil => exact .nil _
  | cons p parts ih =>
    have hp := h p List.mem_cons_self (.array items :: frames)
    have hparts := ih (fun q hq => h q (List.mem_cons_of_mem p hq)) (p.2 :: items)
    rw [List.flatMap_cons, List.map_cons, List.reverse_cons, List.append_assoc]
    exact .append (.cons rfl hp) hparts

/-- An array is read with its items in order. -/
theorem means_array {parts : List (List Token × Json)} (h : ∀ p ∈ parts, Means p.1 p.2) :
    Means (.openBracket :: (commaWords (parts.map (·.1)) ++ [.closeBracket]))
      (.array (parts.map (·.2))) := by
  intro frames
  cases parts with
  | nil => rfl
  | cons p parts =>
    have hp := (h p List.mem_cons_self).valueOrEnd (.array [] :: frames)
    have hparts := leads_items (fun q hq => h q (List.mem_cons_of_mem p hq)) frames [p.2]
    rw [List.map_cons, commaWords, List.flatMap_map]
    refine .cons rfl (.append (.append hp hparts) (.cons ?_ (.nil _)))
    simp [step?]

/-- The words of a member of an object. -/
def memberWords (member : String × List Token × Json) : List Token :=
  .string (some member.1) :: .colon :: member.2.1

/-- The member that is read from its words. -/
def memberValue (member : String × List Token × Json) : Option String × Json :=
  (some member.1, member.2.2)

/-- The members of an object behind the first one. -/
theorem leads_members {members : List (String × List Token × Json)}
    (h : ∀ m ∈ members, Means m.2.1 m.2.2) (frames : List Frame)
    (before : List (Option String × Json)) (name : Option String) :
    ∃ last, Leads ⟨.object before name :: frames, .separator⟩
      (members.flatMap fun m => .comma :: memberWords m)
      ⟨.object ((members.map memberValue).reverse ++ before) last :: frames, .separator⟩ := by
  induction members generalizing before name with
  | nil => exact ⟨name, .nil _⟩
  | cons m members ih =>
    have hm := h m List.mem_cons_self (.object before (some m.1) :: frames)
    obtain ⟨last, hmembers⟩ := ih (fun n hn => h n (List.mem_cons_of_mem m hn))
      (memberValue m :: before) (some m.1)
    refine ⟨last, ?_⟩
    rw [List.flatMap_cons, List.map_cons, List.reverse_cons, List.append_assoc]
    exact .append (.cons rfl (.cons rfl (.cons rfl hm))) hmembers

/-- An object is read with its members in order. -/
theorem means_object {members : List (String × List Token × Json)}
    (h : ∀ m ∈ members, Means m.2.1 m.2.2) :
    Means (.openBrace :: (commaWords (members.map memberWords) ++ [.closeBrace]))
      (.object (members.map memberValue)) := by
  intro frames
  cases members with
  | nil => rfl
  | cons m members =>
    have hm := h m List.mem_cons_self (.object [] (some m.1) :: frames)
    obtain ⟨last, hmembers⟩ :=
      leads_members (fun n hn => h n (List.mem_cons_of_mem m hn)) frames [memberValue m] (some m.1)
    rw [List.map_cons, commaWords, List.flatMap_map]
    refine .cons rfl (.append (.append (.cons rfl (.cons rfl hm)) hmembers) (.cons ?_ (.nil _)))
    simp [step?]

/-- The value of a whole text. -/
theorem ofTokens?_of_means {words : List Token} {value : Json} (h : Means words value) :
    ofTokens? words = some value := by
  rw [ofTokens?, show words.foldlM step? ⟨[], .value⟩ = some (.complete value []) from h []]
  rfl

/-- Some characters spell the words of a value. -/
def Writes (cs : List Char) (value : Json) : Prop :=
  ∃ words, Spells cs words ∧ Means words value

end Json

namespace Settings

open Json

/-! ### Written lists and members -/

theorem commaLines_cons (part : List Char) (parts : List (List Char)) :
    commaLines (part :: parts) = part ++ parts.flatMap fun next => ',' :: '\n' :: next := by
  induction parts generalizing part with
  | nil => simp [commaLines]
  | cons next parts ih =>
    rw [commaLines, ih, List.flatMap_cons]
    rfl

/-- Parts on lines of their own spell their words with commas between them. -/
theorem spells_commaLines {parts : List (List Char)} {words : List (List Token)}
    (h : List.Forall₂ Spells parts words) : Spells (commaLines parts) (commaWords words) := by
  have hmore {parts : List (List Char)} {words : List (List Token)}
      (h : List.Forall₂ Spells parts words) {rest : List Char} {tokens : List Token}
      (hrest : EndsNumber rest) (htokens : tokens? rest = some tokens) :
      EndsNumber (parts.flatMap (fun next => ',' :: '\n' :: next) ++ rest) ∧
        tokens? (parts.flatMap (fun next => ',' :: '\n' :: next) ++ rest) =
          some (words.flatMap (.comma :: ·) ++ tokens) := by
    induction h with
    | nil => exact ⟨hrest, htokens⟩
    | @cons part word parts words hpart _ ih =>
      refine ⟨by simp [EndsNumber], ?_⟩
      rw [List.flatMap_cons, List.append_assoc, List.flatMap_cons, List.append_assoc]
      refine tokens?_mark rfl rfl ((tokens?_space rfl).trans ?_)
      exact hpart ih.1 ih.2
  intro rest tokens hrest htokens
  cases h with
  | nil => exact htokens
  | cons hpart hparts =>
    obtain ⟨hends, hread⟩ := hmore hparts hrest htokens
    rw [commaLines_cons, commaWords, List.append_assoc, List.append_assoc]
    exact hpart hends hread

/-- An array of strings. -/
theorem writes_strings (items : List String) :
    Writes (renderStrings items) (.array (items.map fun item => .string (some item))) := by
  rw [renderStrings]
  split
  · next hempty =>
    obtain rfl : items = [] := by simpa using hempty
    exact ⟨[.openBracket, .closeBracket],
      fun _ _ _ h => tokens?_mark rfl rfl (tokens?_mark rfl rfl h), fun _ => rfl⟩
  · have hparts : List.Forall₂ Spells (items.map fun item => "    ".toList ++ quoted item)
        (items.map fun item => [.string (some item)]) := by
      rw [List.forall₂_map_left_iff, List.forall₂_map_right_iff, List.forall₂_same]
      intro item _ rest tokens _ h
      rw [List.append_assoc, tokens?_spaces rfl]
      exact tokens?_quoted item h
    have hitems : ∀ p ∈ items.map fun item => ([Token.string (some item)], Json.string (some item)),
        Means p.1 p.2 := List.forall_mem_map.2 fun item _ => means_string (some item)
    have hmeans := means_array hitems
    simp only [List.map_map, Function.comp_def] at hmeans
    refine ⟨_, fun rest tokens hrest h => ?_, hmeans⟩
    have hblanks : ['\n', ' ', ' '].all isSpace = true := rfl
    have hclose : tokens? ("\n  ]".toList ++ rest) = some (.closeBracket :: tokens) :=
      (tokens?_spaces hblanks).trans (tokens?_mark rfl rfl h)
    have hends : EndsNumber ("\n  ]".toList ++ rest) := by simp [EndsNumber]
    rw [List.cons_append, List.cons_append]
    refine tokens?_mark rfl rfl ((tokens?_space rfl).trans ?_)
    show tokens? (commaLines _ ++ "\n  ]".toList ++ rest) =
      some (commaWords _ ++ [.closeBracket] ++ tokens)
    rw [List.append_assoc, List.append_assoc]
    exact spells_commaLines hparts hends hclose

/-! ### Single settings -/

/-- One setting of others. -/
def takeOver (t s : Settings) : SettingsKey → Settings
  | .singleDirectories => { t with singleDirectories := s.singleDirectories }
  | .recursiveDirectories => { t with recursiveDirectories := s.recursiveDirectories }
  | .ignoredFiles => { t with ignoredFiles := s.ignoredFiles }
  | .ignoredDirectories => { t with ignoredDirectories := s.ignoredDirectories }
  | .markers => { t with markers := s.markers }
  | .filterHidden => { t with filterHidden := s.filterHidden }
  | .indexRemovable => { t with indexRemovable := s.indexRemovable }
  | .enableMonitors => { t with enableMonitors := s.enableMonitors }
  | .requireConfigured => { t with requireConfigured := s.requireConfigured }
  | .bufferLimit => { t with bufferLimit := s.bufferLimit }
  | .flushInterval => { t with flushInterval := s.flushInterval }
  | .stateDir => { t with stateDir := s.stateDir }

theorem stringsOf?_strings (items : List String) :
    stringsOf? (.array (items.map fun item => .string (some item))) = some items := by
  rw [stringsOf?, List.mapM_map]
  exact (Optional.mapM_eq_some_map (g := id) fun _ _ => rfl).trans (by simp)

theorem writes_bool (b : Bool) : Writes (renderBool b) (.bool b) :=
  ⟨_, spells_bool b, means_bool b⟩

theorem writes_number (n : Nat) : Writes (Text.decimal n) (.number (some n)) :=
  ⟨_, spells_decimal n, means_number _⟩

theorem wordOf?_number (n : UInt64) : wordOf? (.number (some n.toNat)) = some n := by
  have hn : n.toNat ≤ Text.maxWord64 := Nat.le_of_lt_succ n.toNat_lt
  rw [wordOf?, Option.filter_some, if_pos (by simpa using hn), Option.map_some, UInt64.ofNat_toNat]

/-- The written form of a setting is that of a value which sets it. -/
theorem writes_value {s : Settings} {key : SettingsKey} {cs : List Char}
    (h : s.renderValue? key = some cs) :
    ∃ value, Writes cs value ∧ ∀ t : Settings, t.set? key value = some (t.takeOver s key) := by
  cases key with
  | singleDirectories | recursiveDirectories | ignoredFiles | ignoredDirectories | markers =>
    obtain rfl := Option.some.inj h
    exact ⟨_, writes_strings _, fun t => by rw [set?, stringsOf?_strings]; rfl⟩
  | filterHidden | indexRemovable | enableMonitors | requireConfigured =>
    obtain rfl := Option.some.inj h
    exact ⟨_, writes_bool _, fun t => rfl⟩
  | bufferLimit | flushInterval =>
    obtain rfl := Option.some.inj h
    exact ⟨_, writes_number _, fun t => by rw [set?, wordOf?_number]; rfl⟩
  | stateDir =>
    rw [renderValue?] at h
    have hset (t : Settings) (value : Json) (hvalue : pathOf? value = some s.stateDir) :
        t.set? .stateDir value = some (t.takeOver s .stateDir) := by
      rw [set?, hvalue]
      rfl
    cases hdir : s.stateDir with
    | none =>
      rw [hdir] at h
      obtain rfl := Option.some.inj h
      exact ⟨_, ⟨_, spells_null, means_null⟩, fun t => hset t _ (hdir ▸ rfl)⟩
    | some path =>
      rw [hdir, renderPath?, Option.map_eq_some_iff] at h
      obtain ⟨text, htext, rfl⟩ := h
      have hpath : Path.ofString text = path := by
        rw [Path.ofString, Text.utf8_of_ofUtf8? htext]
      refine ⟨_, ⟨_, spells_quoted text, means_string _⟩, fun t => hset t _ ?_⟩
      rw [hdir, ← hpath]
      rfl

/-! ### Whole files -/

/-- The settings that have been set one after the other. -/
theorem setAll?_of_takeOver {s : Settings} {fields : List (SettingsKey × Json)}
    (h : ∀ f ∈ fields, ∀ t : Settings, t.set? f.1 f.2 = some (t.takeOver s f.1)) (t : Settings) :
    t.setAll? fields = some (fields.foldl (fun t f => t.takeOver s f.1) t) := by
  induction fields generalizing t with
  | nil => rfl
  | cons f fields ih =>
    rw [setAll?, List.foldlM_cons, h f List.mem_cons_self t]
    exact ih (fun g hg => h g (List.mem_cons_of_mem f hg)) _

/-- Whoever takes over all settings has the same. -/
theorem foldl_takeOver (t s : Settings) : SettingsKey.all.foldl (·.takeOver s ·) t = s := by
  cases s
  simp [SettingsKey.all, takeOver]

theorem find?_fieldName (key : SettingsKey) :
    SettingsKey.all.find? (fun other => decide (other.fieldName = key.fieldName)) = some key := by
  cases key <;> decide

/-- The written members of settings: their words, and what is read from them. -/
theorem exists_members {s : Settings} {keys : List SettingsKey} {members : List (List Char)}
    (h : List.Forall₂ (fun key member => s.renderMember? key = some member) keys members) :
    ∃ values : List (SettingsKey × List Token × Json), values.map (·.1) = keys ∧
      List.Forall₂ Spells members (values.map fun v => memberWords (v.1.fieldName, v.2)) ∧
      ∀ v ∈ values, Means v.2.1 v.2.2 ∧
        ∀ t : Settings, t.set? v.1 v.2.2 = some (t.takeOver s v.1) := by
  induction h with
  | nil => exact ⟨[], rfl, .nil, by simp⟩
  | @cons key member keys members hmember _ ih =>
    obtain ⟨values, hkeys, hspells, hvalues⟩ := ih
    rw [renderMember?, Option.map_eq_some_iff] at hmember
    obtain ⟨cs, hcs, rfl⟩ := hmember
    obtain ⟨value, ⟨words, hwords, hmeans⟩, hset⟩ := writes_value hcs
    refine ⟨(key, words, value) :: values, by rw [List.map_cons, hkeys], .cons ?_ hspells, ?_⟩
    · intro rest tokens hrest h
      have hvalue := hwords hrest h
      refine ((tokens?_space rfl).trans (tokens?_space rfl)).trans ?_
      show tokens? (quoted key.fieldName ++ ':' :: ' ' :: cs ++ rest) = _
      rw [List.append_assoc]
      exact tokens?_quoted _ (tokens?_mark rfl rfl ((tokens?_space rfl).trans hvalue))
    · intro v hv
      rcases List.mem_cons.1 hv with rfl | hv
      · exact ⟨hmeans, hset⟩
      · exact hvalues v hv

/-- **Settings are read back from what is written of them.** -/
theorem ofText?_render {s : Settings} {text : String} (h : s.render? = some text) :
    ofText? text = some s := by
  simp only [render?, Option.bind_eq_bind, Option.bind_eq_some_iff, Option.pure_def,
    Option.some.injEq] at h
  obtain ⟨members, hmembers, rfl⟩ := h
  obtain ⟨values, hkeys, hspells, hvalues⟩ :=
    exists_members (Optional.mapM_eq_some_iff.1 hmembers)
  have hread : Json.read? (.ofList ('{' :: '\n' :: commaLines members ++ ['\n', '\x7d'])) =
      some (.object ((values.map fun v => (v.1.fieldName, v.2)).map memberValue)) := by
    have hmeans : Means _ (.object ((values.map fun v => (v.1.fieldName, v.2)).map memberValue)) :=
      means_object fun m hm => by
        obtain ⟨v, hv, rfl⟩ := List.mem_map.1 hm
        exact (hvalues v hv).1
    have hclose : tokens? ['\n', '\x7d'] = some [.closeBrace] := rfl
    have hwords := spells_commaLines hspells (by simp [EndsNumber]) hclose
    rw [List.map_map] at hmeans
    rw [Json.read?, String.toList_ofList, List.cons_append, List.cons_append,
      tokens?_mark rfl rfl ((tokens?_space rfl).trans hwords)]
    exact ofTokens?_of_means hmeans
  have hnamed : namedMembers? ((values.map fun v => (v.1.fieldName, v.2)).map memberValue) =
      some (values.map fun v => (v.1.fieldName, v.2.2)) := by
    rw [namedMembers?, List.map_map, List.mapM_map]
    exact Optional.mapM_eq_some_map fun v _ => rfl
  have hfields : fieldsOf (values.map fun v => (v.1.fieldName, v.2.2)) =
      values.map fun v => (v.1, v.2.2) := by
    rw [fieldsOf, List.filterMap_map, ← List.filterMap_eq_map]
    exact List.filterMap_congr fun v _ => by simp [find?_fieldName]
  have hset : setAll? default (values.map fun v => (v.1, v.2.2)) = some s := by
    rw [setAll?_of_takeOver fun f hf => ?_, List.foldl_map]
    · have hall := foldl_takeOver default s
      rw [← hkeys, List.foldl_map] at hall
      rw [hall]
    · obtain ⟨v, hv, rfl⟩ := List.mem_map.1 hf
      exact (hvalues v hv).2
  have hnodup : ((values.map fun v => (v.1, v.2.2)).map (·.1)).Nodup := by
    rw [List.map_map]
    exact hkeys ▸ (by decide : SettingsKey.all.Nodup)
  rw [ofText?, hread, Option.bind_some, ofJson?, hnamed]
  simp only [Option.bind_eq_bind, Option.bind_some, hfields, if_pos hnodup, hset]

/-- Settings can be written unless they have a state directory that is not text. -/
theorem render?_eq_none_iff {s : Settings} :
    s.render? = none ↔ ∃ dir, s.stateDir = some dir ∧ dir.toString? = none := by
  have hmember (key : SettingsKey) : s.renderMember? key = none ↔
      key = .stateDir ∧ ∃ dir, s.stateDir = some dir ∧ dir.toString? = none := by
    rw [renderMember?, Option.map_eq_none_iff]
    cases key with
    | stateDir =>
      rw [renderValue?]
      cases s.stateDir <;> simp [renderPath?]
    | _ => simp [renderValue?]
  have hall : SettingsKey.all.mapM s.renderMember? = none ↔ s.render? = none := by
    rw [render?]
    cases SettingsKey.all.mapM s.renderMember? <;> simp
  rw [← hall, Optional.mapM_eq_none_iff]
  simp [hmember, SettingsKey.all]

end Settings

end IndexControl
