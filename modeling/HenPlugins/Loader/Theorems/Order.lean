import HenPlugins.Ini.Theorems.RoundTrip
import HenPlugins.Loader.Theorems.Loop

open List CString Ini Path StateTransition

namespace Ini.INIFile

-- The names of the sections and of the keys in each of them, in the order in which they are stored.
def order (ini : INIFile) : List (Bytes × List Bytes) :=
  ini.sections.map fun sec => (sec.id, sec.keys.map (·.id))

variable {ini : INIFile}

theorem order_dropPending : ini.dropPending.order = ini.order := by
  cases h : ini.sections <;> simp [order, dropPending, setPendingComments, h]

-- The sections and the keys of each section are read in the opposite order.
theorem order_iniLoad_iniSave (hb : ini.NoBreaks) (hr : ∀ sec ∈ ini.sections, sec.Rereads) :
    (iniLoad (some (iniSave ini))).order = (ini.order.map fun o => (o.1, o.2.reverse)).reverse := by
  rw [← order_dropPending, iniLoad_iniSave hb hr, order, map_reverse, map_map, order, map_map]
  have hi : KeyValue.id ∘ KeyValue.reread = KeyValue.id := rfl
  congr 2
  funext sec
  rw [Function.comp_apply, Section.reread, map_reverse, map_map, hi]
  rfl

-- At most one section, and at most one key in it.
def Single (ini : INIFile) : Prop :=
  ini.sections.length ≤ 1 ∧ ∀ sec ∈ ini.sections, sec.keys.length ≤ 1

instance : Decidable ini.Single :=
  inferInstanceAs (Decidable (_ ∧ _))

end Ini.INIFile

namespace Loader

variable {ini : INIFile} {t p q : Bytes} {l : Loop}

-- `loadPlugins` calls `load_module` for `p` and later on for `q`.
def LoadsBefore (ini : INIFile) (t p q : Bytes) : Prop :=
  ∃ l, Reaches (loopStep t) (loopStart ini) l ∧ [p, q] <+ l.loaded

def LoadsModule (ini : INIFile) (t p : Bytes) : Prop :=
  ∃ l, Reaches (loopStep t) (loopStart ini) l ∧ p ∈ l.loaded

-- Saving does not change the order, so that after a value has been written to an existing key, the modules that are
-- still loaded are loaded in the order they have been loaded before.
structure KeepsOrder (ini : INIFile) : Prop where
  saved : (iniLoad (some (iniSave ini))).order = ini.order
  loads : ∀ s k v t p q, (iniGet ini s k).isSome → (iniSet ini s k v).WellFormed → LoadsBefore ini t p q →
    let ini' := iniLoad (some (iniSave (iniSet ini s k v)))
    LoadsModule ini' t p → LoadsModule ini' t q → LoadsBefore ini' t p q

theorem length_le_one_of_reverse_eq {α : Type*} {l : List α} (h : l.Nodup) (hr : l.reverse = l) : l.length ≤ 1 := by
  cases Palindrome.of_reverse_eq hr
  case nil         => exact Nat.zero_le 1
  case singleton a => exact le_rfl
  case cons_concat => simp at h

theorem reverse_eq_of_length_le_one {α : Type*} {l : List α} (h : l.length ≤ 1) : l.reverse = l := by
  obtain _ | ⟨a, _ | ⟨b, l⟩⟩ := l
  · rfl
  · rfl
  · simp at h

-- No two modules are loaded from such a file.
theorem length_loaded_le (h : ini.Single) (hl : Reaches (loopStep t) (loopStart ini) l) : l.loaded.length ≤ 1 := by
  have ⟨pre, hp, _, hd⟩ := (progress_of_reaches hl).position
  have hn := hp ▸ h.left
  have hk := hp ▸ h.right
  rw [hd]
  clear hl hp hd
  obtain _ | ⟨sec, pre⟩ := pre
  case nil  => exact Nat.zero_le 1
  case cons =>
    have hz : pre = [] := by
      rw [cons_append, length_cons, length_append] at hn
      exact length_eq_zero_iff.mp (by omega)
    rw [hz, flatMap_singleton, enabledKeys, length_map]
    exact (length_filter_le _ _).trans (hk sec (by simp))

theorem not_loadsBefore (h : ini.Single) : ¬LoadsBefore ini t p q := by
  intro ⟨l, hl, hs⟩
  have hn := hs.length_le.trans (length_loaded_le h hl)
  exact absurd hn (by simp)

theorem single_of_order_eq (hw : ini.WellFormed)
    (h : (ini.order.map fun o => (o.1, o.2.reverse)).reverse = ini.order) : ini.Single := by
  have hn : ini.sections.length ≤ 1 := by
    have hm := congrArg (map Prod.fst) h
    simp only [INIFile.order, map_reverse, map_map, Function.comp_def] at hm
    simpa using length_le_one_of_reverse_eq hw.unambiguous.sections hm
  refine ⟨hn, ?_⟩
  cases hs : ini.sections
  case nil => simp
  case cons sec secs =>
    rw [← hs]
    have hz : secs = [] := by simpa [hs] using hn
    rw [hz] at hs
    have hu := hw.unambiguous.keys sec (by simp [hs])
    simp only [INIFile.order, hs, map_cons, map_nil, reverse_singleton, cons.injEq, Prod.mk.injEq, true_and, and_true] at h
    simpa [hs] using length_le_one_of_reverse_eq hu h

-- As every load reverses what the file before it has held, the order is kept only if there is none.
theorem keepsOrder_iff (ini : INIFile) (h : ini.WellFormed) : KeepsOrder ini ↔ ini.Single := by
  have ho := INIFile.order_iniLoad_iniSave h.noBreaks h.rereads
  constructor
  case mp  => exact fun hk => single_of_order_eq h (ho ▸ hk.saved)
  case mpr =>
    intro hs
    constructor
    case loads => exact fun _ _ _ _ _ _ _ _ hb => absurd hb (not_loadsBefore hs)
    case saved =>
      have hk : ini.order.map (fun o => (o.1, o.2.reverse)) = ini.order := by
        rw [INIFile.order, map_map]
        refine map_congr_left fun sec hm => ?_
        rw [Function.comp_apply, reverse_eq_of_length_le_one ((length_map _).trans_le (hs.right sec hm))]
      rw [ho, hk]
      exact reverse_eq_of_length_le_one ((length_map _).trans_le hs.left)

def sampleKey (k : String) : KeyValue :=
  { createKey (bytes k) with value := .strncpy (bytes "1") }

def sampleFile (ks : List String) : INIFile :=
  { INIFile.empty with sections := [{ createSection (bytes "all") with keys := ks.map sampleKey }] }

theorem sampleFile_wellFormed {ks : List String} (hk : ∀ k ∈ ks, (sampleKey k).WellFormed)
    (hd : ((ks.map sampleKey).map KeyValue.id).Nodup) : (sampleFile ks).WellFormed := by
  have hw : (createSection (bytes "all")).WellFormed := {
    name := by decide, noBracket := by decide, comment := by decide, commentsBefore := by decide,
    keys := by simp [createSection] }
  have hs : ∀ sec ∈ (sampleFile ks).sections, sec.WellFormed := by
    intro sec hm
    obtain rfl := mem_singleton.mp hm
    exact { hw with keys := by simpa using hk }
  exact ⟨⟨nodup_singleton _, by simpa [sampleFile] using hd⟩, by simp [sampleFile, INIFile.empty], hs⟩

theorem sampleKey_wellFormed : ∀ k ∈ ["a", "b"], (sampleKey k).WellFormed := by
  simp only [forall_mem_cons, not_mem_nil, false_implies, implies_true, and_true]
  constructor
  all_goals exact {
    key := by decide, noEquals := by decide, noBracket := by decide, value := by decide, comment := by decide,
    commentsBefore := by decide, fits := by decide }

theorem keepsOrder_sample : KeepsOrder (sampleFile ["a"]) :=
  keepsOrder_iff _ (sampleFile_wellFormed (fun k hk => sampleKey_wellFormed k (by simp_all)) (by decide)) |>.mpr (by decide)

-- Once the file has been saved, the second module is loaded first.
theorem saving_reorders :
    (sampleFile ["a", "b"]).WellFormed ∧
    (iniLoad (some (iniSave (sampleFile ["a", "b"])))).order = [(bytes "all", [bytes "b", bytes "a"])] ∧
    ¬KeepsOrder (sampleFile ["a", "b"]) := by
  have ho : (iniLoad (some (iniSave (sampleFile ["a", "b"])))).order ≠ (sampleFile ["a", "b"]).order := by decide
  exact ⟨sampleFile_wellFormed sampleKey_wellFormed (by decide), by decide, fun h => ho h.saved⟩

end Loader
