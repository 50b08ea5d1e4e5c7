import HenPlugins.Loader.Theorems.Loop

open List CString Ini

namespace Loader

-- The loop reaches the end of the list only if it never comes across a section that is not selected.
theorem sectionLoop_examines_iff (file : Option Bytes) (titleid : Bytes) :
    Run.Halts (loopStep titleid) (loopStart (iniLoad file)) (fun l => l.examined = (iniLoad file).sections) ↔
      ∀ sec ∈ (iniLoad file).sections, isSelected titleid sec :=
  halts_iff [] []

-- A file with one section for another title hangs the loop.
theorem sectionLoop_hangs :
    ¬Run.Halts (loopStep (bytes "CUSA00002"))
      (loopStart (iniLoad (bytes "[CUSA00001]\n/data/a.prx=1\n")))
      (fun l => l.examined = (iniLoad (bytes "[CUSA00001]\n/data/a.prx=1\n")).sections) := by
  have ⟨sec, secs, hr, hs⟩ : ∃ sec secs,
      (loopStart (iniLoad (bytes "[CUSA00001]\n/data/a.prx=1\n"))).rest = sec :: secs ∧
      ¬isSelected (bytes "CUSA00002") sec := ⟨_, _, rfl, by decide⟩
  exact not_halts hr hs

end Loader
