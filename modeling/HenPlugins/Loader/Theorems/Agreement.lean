import HenPlugins.Ini.Access
import HenPlugins.Ini.Theorems.Lookup
import HenPlugins.Loader.Theorems.Loop

open List CString Ini Path StateTransition

namespace Loader

variable {iniFile appInfo : Option Bytes} {t p : Bytes} {ini : INIFile} {sec : Section} {secs : List Section}
  {kv : KeyValue} {l : Loop}

-- The paths that are loaded if each section is examined once.
def loadedOnce (sections : List Section) (titleid : Bytes) : List Bytes :=
  (sections.filter (isSelected titleid)).flatMap enabledKeys

-- If the loop examines each section once, then it loads these paths.
theorem loaded_eq_loadedOnce (h : Reaches (loopStep t) (loopStart ini) l) (hn : loopStep t l = none) :
    l.loaded = loadedOnce ini.sections t := by
  have ⟨pre, hp, hs, hl⟩ := (progress_of_reaches h).position
  rw [loopStep_eq_none.mp hn, append_nil] at hp
  rw [hl, loadedOnce, hp, filter_eq_self.mpr hs]

-- The paths that `loadPlugins` loads if each section is examined once.
def loadPluginsOnce (iniFile appInfo : Option Bytes) : List Bytes :=
  if (readAppinfo appInfo).pid.toInt < 0 then []
  else loadedOnce (iniLoad iniFile).sections (readAppinfo appInfo).titleid

-- The state of the switch that the Plugin Manager shows for a path.
def shown (iniFile : Option Bytes) (p : Bytes) : Bool :=
  simpleGetBool <| iniGet (iniLoad iniFile) pluginsAllSection p

-- Apart from the entry that is shown, the loader does not come across an enabled entry for a path.
def OthersDisabled (ini : INIFile) (p : Bytes) : Prop :=
  ∀ sec ∈ (iniDeleteKey ini pluginsAllSection p).2.sections, startsWithCase sec.name.text pluginsAllSection →
    ∀ kv ∈ sec.keys, kv.id = p → ¬simpleGetBool kv.value.text

theorem isSelected_all (h : sec.id = pluginsAllSection) : isSelected t sec := by
  rw [isSelected, startsWithCase, show sec.name.text = pluginsAllSection from h]
  rfl

theorem count_enabledKeys_perm {kvs : List KeyValue} (h : sec.keys.Perm (kv :: kvs)) :
    (enabledKeys sec).count p = (enabledKeys { sec with keys := kvs }).count p +
      if kv.id = p ∧ simpleGetBool kv.value.text then 1 else 0 := by
  have hp := (h.filter fun kv => simpleGetBool kv.value.text).map KeyValue.id
  rw [enabledKeys, hp.count_eq, enabledKeys]
  by_cases hv : simpleGetBool kv.value.text <;> by_cases hk : kv.id = p <;> simp [hv, hk]

theorem count_loadedOnce_perm {secs' : List Section} (h : secs.Perm (sec :: secs')) :
    (loadedOnce secs t).count p = (loadedOnce secs' t).count p +
      if isSelected t sec then (enabledKeys sec).count p else 0 := by
  have hp := (h.filter (isSelected t)).flatMap_right enabledKeys
  rw [loadedOnce, hp.count_eq, loadedOnce]
  by_cases hs : isSelected t sec <;> simp [hs, Nat.add_comm]

-- The entry that is shown is loaded once more than the others.
theorem count_loadedOnce : (loadedOnce ini.sections t).count p =
    (loadedOnce (iniDeleteKey ini pluginsAllSection p).2.sections t).count p +
      if simpleGetBool (iniGet ini pluginsAllSection p) then 1 else 0 := by
  rw [iniDeleteKey, iniGet]
  cases hs : ini.findSection pluginsAllSection
  case none => simp [simpleGetBool]
  case some sec =>
    cases hk : sec.findKey p
    case none => simp [hk, simpleGetBool]
    case some kv =>
      have ha : isSelected t sec := isSelected_all (Keyed.key_of_lookup hs)
      have ha' : isSelected t (sec.deleteKey p) := ha
      have hd : (Keyed.modifyFirst (·.id = pluginsAllSection) (·.deleteKey p) ini.sections).Perm _ :=
        Keyed.modifyFirst_perm hs
      have hkv : kv.id = p := Keyed.key_of_lookup hk
      simp only [hk]
      rw [count_loadedOnce_perm (Keyed.lookup_perm hs), count_loadedOnce_perm hd, if_pos ha, if_pos ha',
        count_enabledKeys_perm (Keyed.lookup_perm hk)]
      simp only [hkv, true_and, Section.deleteKey]
      omega

theorem count_loadedOnce_eq_zero (h : ∀ sec ∈ secs, ¬startsWith sec.name.text t) :
    (loadedOnce secs t).count p = 0 ↔
      ∀ sec ∈ secs, startsWithCase sec.name.text pluginsAllSection →
        ∀ kv ∈ sec.keys, kv.id = p → ¬simpleGetBool kv.value.text := by
  have hs : ∀ sec ∈ secs, isSelected t sec = startsWithCase sec.name.text pluginsAllSection := by
    intro sec hm
    simp [isSelected, h sec hm]
  rw [count_eq_zero, loadedOnce, filter_congr hs]
  simp only [mem_flatMap, mem_filter, enabledKeys, mem_map]
  grind

theorem count_enabledKeys (h : (sec.keys.map KeyValue.id).Nodup) : (enabledKeys sec).count p =
    if simpleGetBool ((sec.findKey p).map (·.value.text)) then 1 else 0 := by
  rw [enabledKeys, Section.findKey]
  generalize sec.keys = kvs at h
  induction kvs
  case nil => rfl
  case cons kv kvs hi =>
    rw [map_cons, nodup_cons] at h
    rw [Keyed.lookup_cons]
    by_cases hk : kv.id = p
    case neg =>
      rw [if_neg hk, ← hi h.right]
      by_cases hv : simpleGetBool kv.value.text <;> simp [hv, hk]
    case pos =>
      have hn : ((kvs.filter fun kv => simpleGetBool kv.value.text).map KeyValue.id).count p = 0 := by
        rw [count_eq_zero]
        exact fun hm => h.left <| hk ▸ (filter_sublist.map _).subset hm
      by_cases hv : simpleGetBool kv.value.text <;> simp [hv, hk, hn]

-- In a file without repetitions that only has sections for all titles, the loader and the Plugin Manager
-- see the same entries.
theorem count_loadedOnce_of_unambiguous (h : ini.Unambiguous)
    (hs : ∀ sec ∈ ini.sections, sec.id = pluginsAllSection) : (loadedOnce ini.sections t).count p =
      if simpleGetBool (iniGet ini pluginsAllSection p) then 1 else 0 := by
  rw [INIFile.iniGet_eq, INIFile.find, INIFile.findSection, loadedOnce]
  have hn := h.sections
  rcases hi : ini.sections with _ | ⟨sec, _ | ⟨sec', _⟩⟩
  case nil => rfl
  case cons.nil =>
    have ha : sec.id = pluginsAllSection := hs sec (by simp [hi])
    have hk := count_enabledKeys (p := p) (h.keys sec (by simp [hi]))
    simp [Keyed.lookup_cons, ha, isSelected_all ha, hk]
  case cons.cons =>
    have ha : sec.id = sec'.id := (hs sec (by simp [hi])).trans (hs sec' (by simp [hi])).symm
    simp [hi, ha] at hn

theorem mem_iniDeleteKey_name {s k : Bytes} (h : sec ∈ (iniDeleteKey ini s k).2.sections) :
    ∃ sec' ∈ ini.sections, sec'.name = sec.name := by
  rw [iniDeleteKey] at h
  split at h
  case h_1 => exact ⟨sec, h, rfl⟩
  case h_2 sec' hs =>
    split at h
    case h_1 => exact ⟨sec, h, rfl⟩
    case h_2 =>
      obtain rfl | h := mem_cons.mp <| (Keyed.modifyFirst_perm hs).mem_iff.mp h
      · exact ⟨sec', Keyed.mem_of_lookup hs, rfl⟩
      · exact ⟨sec, mem_of_mem_eraseP h, rfl⟩

-- A path is loaded as it is shown if no other entry for it is enabled. Nothing is loaded with a negative
-- process id.
theorem loadPlugins_agrees_iff (iniFile appInfo : Option Bytes) (p : Bytes)
    (h : ∀ sec ∈ (iniLoad iniFile).sections, ¬startsWith sec.name.text (readAppinfo appInfo).titleid) :
    (loadPluginsOnce iniFile appInfo).count p = (if shown iniFile p then 1 else 0) ↔
      if (readAppinfo appInfo).pid.toInt < 0 then ¬shown iniFile p else OthersDisabled (iniLoad iniFile) p := by
  rw [loadPluginsOnce]
  split
  case isTrue  => cases shown iniFile p <;> simp
  case isFalse =>
    have hd : ∀ sec ∈ (iniDeleteKey (iniLoad iniFile) pluginsAllSection p).2.sections,
        ¬startsWith sec.name.text (readAppinfo appInfo).titleid := by
      intro sec hm
      have ⟨sec', hm', hn⟩ := mem_iniDeleteKey_name hm
      exact hn ▸ h sec' hm'
    rw [OthersDisabled, ← count_loadedOnce_eq_zero hd, count_loadedOnce, shown]
    omega

theorem loadPlugins_agrees_sample :
    let appInfo := diskAppinfo 5 (bytes "CUSA00001") (bytes "gd") (bytes "01.00")
    (loadPluginsOnce (bytes "[CUSA00002]\na=1\n[all]\na=on\n") appInfo).count (bytes "a") =
      if shown (bytes "[CUSA00002]\na=1\n[all]\na=on\n") (bytes "a") then 1 else 0 := by
  refine loadPlugins_agrees_iff _ _ _ (by decide) |>.mpr ?_
  rw [if_neg (by decide), OthersDisabled]
  decide

-- The loader accepts a section that the Plugin Manager does not find.
theorem loadPlugins_disagrees :
    let appInfo := diskAppinfo 5 (bytes "CUSA00001") (bytes "gd") (bytes "01.00")
    let iniFile := bytes "[ALL]\na=1\n"
    (readAppinfo appInfo).titleid = bytes "CUSA00001" ∧
    (∀ sec ∈ (iniLoad iniFile).sections, ¬startsWith sec.name.text (bytes "CUSA00001")) ∧
    (loadPluginsOnce iniFile appInfo).count (bytes "a") ≠ if shown iniFile (bytes "a") then 1 else 0 := by
  decide

end Loader
