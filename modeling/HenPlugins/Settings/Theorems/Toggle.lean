import HenPlugins.Loader.Theorems.Agreement
import HenPlugins.Settings.Theorems.Write

open List CString Ini Path StateTransition

namespace Settings

variable {name k : Bytes} {on : Bool} {ini : INIFile} {sec : Section} {kv : KeyValue}

-- A press of the switch that the Plugin Manager shows for a file.
structure Press where
  name : Bytes
  on   : Bool

abbrev Press.path (p : Press) : Bytes :=
  prxPath p.name

def switchValue (on : Bool) : Bytes :=
  if on then bytes "1" else bytes "0"

def press (files : Files) (p : Press) : Files :=
  newOnPress .idPluginManager .toggleSwitch p.path (switchValue p.on) files

def lastWritten (presses : List Press) (path : Bytes) : Option Bool :=
  (presses.reverse.find? (·.path = path)).map (·.on)

abbrev slash : UInt8 := 47

-- The names of directory entries that get a switch.
structure FileName (name : Bytes) : Prop where
  length : 1 ≤ name.length ∧ name.length ≤ 255
  chars  : slash ∉ name ∧ 0 ∉ name ∧ NoBreak name
  plugin : isPlugin name

-- A path that fits into the buffer of a key and has no characters that `ini_load` takes for syntax.
structure Toggleable (path : Bytes) : Prop where
  fits      : path.length < maxKeyLength
  noEquals  : equals ∉ path
  noComment : extractComment path semicolon = none ∧ extractComment path hash = none

-- Paths that can be used as keys.
structure SwitchKey (k : Bytes) : Prop where
  text       : Text k
  start      : ∀ c ∈ k.head?, KeyStart c
  toggleable : Toggleable k
  terminated : 0 ∉ k

theorem isspace_of_toupper {c : UInt8} (h : toupper c = 88) : ¬isspace c := by
  grind [toupper, isspace]

theorem getLast_of_endsWith {s t : Bytes} {c : UInt8} (h : endsWith s t) (ht : (t.map toupper).getLast? = c) :
    s.getLast?.map toupper = c := by
  rw [endsWith, isSuffixOf_iff_suffix] at h
  have ⟨u, hu⟩ := h
  rw [← getLast?_map, ← hu, getLast?_append, ht]
  rfl

theorem getLast_of_isPlugin (h : isPlugin name) : name.getLast?.map toupper = some 88 := by
  rw [isPlugin, Bool.or_eq_true] at h
  obtain h | h := h
  all_goals exact getLast_of_endsWith h rfl

theorem prxPath_eq (h : (prxPath name).length < maxKeyLength) :
    prxPath name = userPluginPath ++ bytes "/" ++ name := by
  rw [prxPath, length_take] at h
  rw [prxPath, take_of_length_le]
  simp only [maxKeyLength, prxPathSize] at h ⊢
  omega

theorem head_path {c : UInt8} (h : c ∈ (userPluginPath ++ bytes "/" ++ name).head?) : c = slash :=
  (Option.mem_some_iff.mp h).symm

theorem FileName.switchKey (h : FileName name) (ht : Toggleable (prxPath name)) : SwitchKey (prxPath name) := by
  have ⟨_, hz, hb⟩ := h.chars
  have he := prxPath_eq ht.fits
  have hl := getLast_of_isPlugin h.plugin
  constructor
  case toggleable => exact ht
  case start => exact fun c hc => head_path (he ▸ hc) ▸ by decide
  case terminated =>
    rw [he, mem_append, not_or]
    exact ⟨by decide, hz⟩
  case text =>
    rw [he]
    have hs : ∀ c ∈ (userPluginPath ++ bytes "/" ++ name).head?, ¬isspace c := fun c hc =>
      head_path hc ▸ by decide
    refine ⟨Trim.trimmed_of_ends hs fun c hc => ?_, noBreak_append.mpr ⟨by decide, hb⟩⟩
    -- The path ends with the last character of the extension.
    have ⟨d, hd, hx⟩ := Option.map_eq_some_iff.mp hl
    rw [getLast?_append, hd, Option.some_or, Option.mem_some_iff] at hc
    exact isspace_of_toupper (hc ▸ hx)

-- The entries that the Plugin Manager writes.
structure Switch (kv : KeyValue) : Prop where
  key     : SwitchKey kv.id
  comment : kv.comment.text = []
  value   : ∃ on, kv.value.text = switchValue on

namespace Switch

theorem parses (h : Switch kv) : parseLine kv.keyLine = .keyValue kv.key.text kv.value.text [] := by
  have ⟨on, hv⟩ := h.value
  have hp : Trimmed (switchValue on) ∧ semicolon ∉ switchValue on ∧ hash ∉ switchValue on := by
    cases on <;> decide
  have ⟨ht, hps, hph⟩ := hp
  have hl : kv.keyLine = kv.key.text ++ ([space, equals, space] ++ switchValue on) := by
    simp [KeyValue.keyLine, hv, trailingComment, h.comment]
  have hs := splitComment_append h.key.toggleable.noComment
    (t := [space, equals, space] ++ switchValue on) ⟨by simpa using hps, by simpa using hph⟩
  rw [hl, hv]
  refine (parseLine_key h.key.text.left.head?_neg h.key.start).trans ?_
  apply parseKeyValue_eq h.key.text.left h.key.toggleable.noEquals ht (forall_mem_nil _)
  simpa using hs

theorem trailing_eq (h : Switch kv) : kv.trailing = [] := by
  rw [KeyValue.trailing, h.parses]

theorem rereads (h : Switch kv) : kv.Rereads where
  parses := h.trailing_eq ▸ h.parses
  fits := by
    have ⟨on, hv⟩ := h.value
    have hl : (switchValue on).length = 1 := by cases on <;> rfl
    have hf := kv.key.fits
    simp only [KeyValue.keyLine, trailingComment, h.comment, hv, length_append, hl]
    simp at hf ⊢
    omega

theorem reread (h : Switch kv) : Switch kv.reread where
  key     := h.key
  value   := h.value
  comment := by
    rw [KeyValue.reread, h.trailing_eq]
    rfl

end Switch

-- The files that the Plugin Manager writes.
structure SwitchFile (ini : INIFile) : Prop where
  unambiguous : ini.Unambiguous
  sections    : ∀ sec ∈ ini.sections, sec.id = pluginsAllSection ∧ ∀ kv ∈ sec.keys, Switch kv

theorem createSection_all : (createSection pluginsAllSection).id = pluginsAllSection :=
  createSection_id (by decide) (by decide)

theorem SwitchKey.createKey_id (h : SwitchKey k) : (createKey k).id = k :=
  Ini.createKey_id h.toggleable.fits h.terminated

namespace SwitchFile

theorem empty : SwitchFile .empty where
  unambiguous := ⟨by simp [INIFile.empty], by simp [INIFile.empty]⟩
  sections    := by simp [INIFile.empty]

theorem rereads (h : SwitchFile ini) : ∀ sec ∈ ini.sections, sec.Rereads := by
  intro sec hs
  have ⟨hn, hk⟩ := h.sections sec hs
  have hp : Trimmed pluginsAllSection ∧ Plain pluginsAllSection ∧ rbracket ∉ pluginsAllSection := by decide
  have ⟨ht, hp, hb⟩ := hp
  constructor
  case keys => exact fun kv hm => (hk kv hm).rereads
  case parses =>
    rw [← hn] at ht hp hb
    rw [Section.trailing, parseLine_headerLine ht hp hb]

theorem set (h : SwitchFile ini) (hk : SwitchKey k) :
    SwitchFile (iniSet ini pluginsAllSection k (switchValue on)) where
  unambiguous := h.unambiguous.set createSection_all hk.createKey_id
  sections := by
    intro sec hs
    obtain rfl | hs := INIFile.mem_set_sections hs
    case inr => exact h.sections sec (mem_of_mem_eraseP hs)
    case inl =>
      generalize hg : (ini.findSection pluginsAllSection).getD (createSection pluginsAllSection) = sec
      have hn : sec.id = pluginsAllSection ∧ ∀ kv ∈ sec.keys, Switch kv := by
        subst hg
        cases hf : ini.findSection pluginsAllSection
        case none     => exact ⟨createSection_all, by simp [createSection]⟩
        case some sec => exact h.sections sec (Keyed.mem_of_lookup hf)
      refine ⟨hn.left, fun kv hm => ?_⟩
      obtain rfl | hm := INIFile.mem_set_keys hm
      case inr => exact hn.right kv (mem_of_mem_eraseP hm)
      case inl =>
        have hv : (Buf.strncpy (switchValue on) : Buf maxValueLength).text = switchValue on := by
          cases on <;> exact Buf.strncpy_text (by decide) (by decide)
        cases hf : Section.findKey _ k
        case none    => exact ⟨hk.createKey_id.symm ▸ hk, rfl, on, hv⟩
        case some kv =>
          have hs := hn.right kv (Keyed.mem_of_lookup hf)
          exact ⟨hs.key, hs.comment, on, hv⟩

theorem reload (h : SwitchFile ini) (hb : ini.NoBreaks) : SwitchFile (iniLoad (some (iniSave ini))) where
  unambiguous := h.unambiguous.reload hb h.rereads
  sections := by
    intro sec hs
    have ⟨sec', hs', hn, hk⟩ := INIFile.mem_iniLoad_iniSave hb h.rereads hs
    have ⟨hn', hk'⟩ := h.sections sec' hs'
    refine ⟨(congrArg Buf.text hn).trans hn', fun kv hm => ?_⟩
    rw [hk, mem_reverse, mem_map] at hm
    have ⟨kv', hm', he⟩ := hm
    exact he ▸ (hk' kv' hm').reread

end SwitchFile

variable {presses : List Press} {p : Press} {files : Files} {appInfo : Option Bytes}

-- What the file contains after a sequence of presses.
structure Toggled (presses : List Press) (pluginsIni : Option Bytes) : Prop where
  switchFile : SwitchFile (iniLoad pluginsIni)
  values     : ∀ k, iniGet (iniLoad pluginsIni) pluginsAllSection k = (lastWritten presses k).map switchValue

theorem Toggled.nil : Toggled [] none where
  switchFile := .empty
  values _   := rfl

theorem lastWritten_append {k : Bytes} :
    lastWritten (presses ++ [p]) k = if p.path = k then some p.on else lastWritten presses k := by
  simp only [lastWritten, reverse_append, reverse_cons, reverse_nil, nil_append, singleton_append]
  split
  case isTrue h  => rw [find?_cons_of_pos (by simpa using h), Option.map_some]
  case isFalse h => rw [find?_cons_of_neg (by simpa using h)]

theorem press_pluginsIni : (press files p).pluginsIni =
    some (iniSave (iniSet (iniLoad files.pluginsIni) pluginsAllSection p.path (switchValue p.on))) := rfl

theorem Toggled.press (h : Toggled presses files.pluginsIni) (hk : SwitchKey p.path) :
    Toggled (presses ++ [p]) (press files p).pluginsIni := by
  have hv : (switchValue p.on).length < maxValueLength ∧ 0 ∉ switchValue p.on ∧ NoBreak (switchValue p.on) := by
    cases p.on <;> decide
  have ⟨hl, hz, hn⟩ := hv
  have hf : SwitchFile (iniSet (iniLoad files.pluginsIni) pluginsAllSection p.path (switchValue p.on)) :=
    h.switchFile.set hk
  have hb := (iniLoad_noBreaks files.pluginsIni).set (s := pluginsAllSection) (by decide) hk.text.right hn
  rw [press_pluginsIni]
  constructor
  case switchFile => exact hf.reload hb
  case values =>
    intro k
    rw [INIFile.iniGet_iniLoad_iniSave hb hf.rereads, INIFile.lastGet, hf.unambiguous.findLast_eq,
      ← INIFile.iniGet_eq, lastWritten_append]
    split
    case isTrue hp =>
      rw [← hp, iniSet, INIFile.iniGet_set createSection_all hk.createKey_id hl hz]
      rfl
    case isFalse hp =>
      have hne : (pluginsAllSection, k) ≠ (pluginsAllSection, p.path) := fun he =>
        hp (congrArg Prod.snd he).symm
      rw [iniSet, INIFile.iniGet_set_ne createSection_all hk.createKey_id hne, h.values]

theorem toggled (hf : files.pluginsIni = none) (h : ∀ p ∈ presses, SwitchKey p.path) :
    Toggled presses (presses.foldl press files).pluginsIni := by
  induction presses using List.reverseRecOn
  case nil => exact hf ▸ .nil
  case append_singleton presses p hi =>
    rw [foldl_append]
    exact (hi fun p hp => h p (by simp [hp])).press (h p (by simp))

-- The loader gets through the file and loads exactly the paths that were last switched on, each of them
-- once.
def TogglesWork (presses : List Press) (files : Files) (appInfo : Option Bytes) : Prop :=
  ∃ start l, Loader.loadPlugins (presses.foldl press files).pluginsIni appInfo = some start ∧
    Reaches (Loader.loopStep (Loader.readAppinfo appInfo).titleid) start l ∧
    Loader.loopStep (Loader.readAppinfo appInfo).titleid l = none ∧
    ∀ k, l.loaded.count k = if lastWritten presses k = true then 1 else 0

theorem simpleGetBool_switchValue : Loader.simpleGetBool (switchValue on) = on := by
  cases on <;> decide

theorem togglesWork (presses : List Press) (files : Files) (appInfo : Option Bytes)
    (hf : files.pluginsIni = none) (hp : 0 ≤ (Loader.readAppinfo appInfo).pid.toInt)
    (h : ∀ p ∈ presses, FileName p.name ∧ Toggleable p.path) : TogglesWork presses files appInfo := by
  have ht := toggled hf fun p hm => (h p hm).left.switchKey (h p hm).right
  have hs := ht.switchFile.sections
  have hr := Loader.reaches_append (t := (Loader.readAppinfo appInfo).titleid)
    (fun sec hm => Loader.isSelected_all (hs sec hm).left) [] [] []
  rw [append_nil] at hr
  refine ⟨_, _, if_neg (by omega), hr, Loader.loopStep_nil rfl, fun k => ?_⟩
  have hl := Loader.loaded_eq_loadedOnce hr (Loader.loopStep_nil rfl)
  rw [hl, Loader.count_loadedOnce_of_unambiguous ht.switchFile.unambiguous fun sec hm => (hs sec hm).left,
    ht.values]
  cases lastWritten presses k
  case none    => rfl
  case some on => simp [simpleGetBool_switchValue]

theorem togglesWork_sample :
    TogglesWork [⟨bytes "a.prx", true⟩, ⟨bytes "it's;b.sprx", true⟩, ⟨bytes "a.prx", false⟩] ⟨none, none⟩ none := by
  refine togglesWork _ _ _ rfl (by decide) ?_
  simp only [mem_cons, not_mem_nil, or_false, forall_eq_or_imp, forall_eq]
  refine ⟨⟨⟨?_, ?_, ?_⟩, ⟨?_, ?_, ?_⟩⟩, ⟨⟨?_, ?_, ?_⟩, ⟨?_, ?_, ?_⟩⟩, ⟨⟨?_, ?_, ?_⟩, ⟨?_, ?_, ?_⟩⟩⟩
  all_goals decide

-- A file whose name contains an equals sign is not loaded once it is switched on.
theorem toggle_fails :
    FileName (bytes "a=b.prx") ∧ ¬TogglesWork [⟨bytes "a=b.prx", true⟩] ⟨none, none⟩ none := by
  refine ⟨⟨by decide, by decide, by decide⟩, fun ⟨start, l, hs, hr, hn, hc⟩ => ?_⟩
  have hs : start = Loader.loopStart _ := (Option.some.inj hs).symm
  have hl := Loader.loaded_eq_loadedOnce (hs ▸ hr) hn
  have hc := hc (prxPath (bytes "a=b.prx"))
  rw [hl] at hc
  revert hc
  decide

end Settings
