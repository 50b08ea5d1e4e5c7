import HenPlugins.Loader.Theorems.Loop

open List CString Ini Path StateTransition

namespace Loader

variable {iniFile appInfo : Option Bytes} {t p : Bytes} {ini : INIFile} {sec : Section} {kv : KeyValue}

-- `loadPlugins` calls `load_module` for a path at some point.
def Loads (iniFile appInfo : Option Bytes) (p : Bytes) : Prop :=
  ∃ start l, loadPlugins iniFile appInfo = some start ∧
    Reaches (loopStep (readAppinfo appInfo).titleid) start l ∧ p ∈ l.loaded

-- The sections that apply to an application with the given title.
def Own (t : Bytes) (sec : Section) : Prop :=
  sec.name.text.map tolower = pluginsAllSection.map tolower ∨ sec.name.text = t

instance : Decidable (Own t sec) :=
  inferInstanceAs (Decidable (_ ∨ _))

-- A path is a key of a section that applies.
def InOwnSection (ini : INIFile) (t p : Bytes) : Prop :=
  ∃ sec ∈ ini.sections, Own t sec ∧ ∃ kv ∈ sec.keys, kv.id = p

-- Only keys of sections that apply are loaded.
def Isolated (iniFile appInfo : Option Bytes) (t : Bytes) : Prop :=
  ∀ p, Loads iniFile appInfo p → InOwnSection (iniLoad iniFile) t p

theorem mem_enabledKeys : p ∈ enabledKeys sec ↔ ∃ kv ∈ sec.keys, simpleGetBool kv.value.text ∧ kv.id = p := by
  simp [enabledKeys, and_assoc]

theorem loads_iff (h : 0 ≤ (readAppinfo appInfo).pid.toInt) : Loads iniFile appInfo p ↔
    ∃ sec ∈ (iniLoad iniFile).sections.takeWhile (isSelected (readAppinfo appInfo).titleid),
      p ∈ enabledKeys sec := by
  have hl : loadPlugins iniFile appInfo = loopStart (iniLoad iniFile) := by
    rw [loadPlugins, if_neg (by omega)]
  simp only [← loaded_iff, Loads, hl, Option.some.injEq]
  exact ⟨fun ⟨_, l, hs, hr, hp⟩ => ⟨l, hs ▸ hr, hp⟩, fun ⟨l, hr, hp⟩ => ⟨_, l, rfl, hr, hp⟩⟩

theorem not_loads (h : (readAppinfo appInfo).pid.toInt < 0) : ¬Loads iniFile appInfo p := by
  intro ⟨_, _, hl, _⟩
  rw [loadPlugins, if_pos h] at hl
  contradiction

-- The loop gets past sections whose name only starts with `all` or with the title id in the file. Their
-- keys are only loaded for the right title if they are also keys of a section that applies.
theorem isolated_iff (iniFile appInfo : Option Bytes) (t : Bytes) :
    Isolated iniFile appInfo t ↔
      (readAppinfo appInfo).pid.toInt < 0 ∨
      ∀ sec ∈ (iniLoad iniFile).sections.takeWhile (isSelected (readAppinfo appInfo).titleid),
        ¬Own t sec → ∀ kv ∈ sec.keys, simpleGetBool kv.value.text → InOwnSection (iniLoad iniFile) t kv.id := by
  by_cases hp : (readAppinfo appInfo).pid.toInt < 0
  case pos => exact iff_of_true (fun _ hl => absurd hl (not_loads hp)) (.inl hp)
  case neg =>
    have hp' : 0 ≤ (readAppinfo appInfo).pid.toInt := by omega
    rw [or_iff_right hp]
    constructor
    case mp =>
      intro h sec hs _ kv hk hv
      apply h kv.id
      rw [loads_iff hp']
      exact ⟨sec, hs, mem_enabledKeys.mpr ⟨kv, hk, hv, rfl⟩⟩
    case mpr =>
      intro h p hl
      rw [loads_iff hp'] at hl
      have ⟨sec, hs, hm⟩ := hl
      have ⟨kv, hk, hv, he⟩ := mem_enabledKeys.mp hm
      by_cases ho : Own t sec
      case pos => exact ⟨sec, ( takeWhile_prefix _).subset hs, ho, kv, hk, he⟩
      case neg => exact he ▸ h sec hs ho kv hk hv

-- Without the file the title id is empty, and so the section of any other title is loaded.
theorem not_isolated_without_appInfo :
    Loads (bytes "[CUSA00002]\n/data/x.prx=1\n") none (bytes "/data/x.prx") ∧
    ¬Isolated (bytes "[CUSA00002]\n/data/x.prx=1\n") none (bytes "CUSA00001") := by
  have hl : Loads (bytes "[CUSA00002]\n/data/x.prx=1\n") none (bytes "/data/x.prx") := by
    rw [loads_iff (by decide)]
    decide
  refine ⟨hl, fun h => ?_⟩
  have hi := h _ hl
  rw [InOwnSection] at hi
  revert hi
  decide

end Loader
