import HenPlugins.Memory.Hook
import HenPlugins.Memory.Theorems.Cave

open List Set Mem

namespace Memory

variable {disasm : Disasm} {cave src dst : Addr} {s : CaveState} {m m₀ : Mem} {h : Hook} {i : Installed}
  {is : List Installed} {len : Nat} {call : Bool}

theorem writeJump64_eqOn : EqOn (writeJump64 m src dst) m (region src 14)ᶜ := by
  rw [writeJump64_eq, ← @length_jump64 dst]
  exact write_eqOn

theorem writeJump32_eqOn : EqOn (writeJump32 m src dst len call) m (region src len)ᶜ := by
  rw [writeJump32]
  split
  case isTrue => exact eqOn_refl ..
  case isFalse h =>
    obtain ⟨_, _, hl⟩ : src ≠ 0 ∧ dst ≠ 0 ∧ ¬len < 5 := by simpa using h
    have hl : 5 ≤ len := not_lt.mp hl
    have h1 : (1 : Addr) = .ofNat 64 1 := rfl
    refine eqOn_write (eqOn_write ?_ (region_mono ?_)) ?_
    · split
      case isFalse => exact eqOn_refl ..
      case isTrue  =>
        rw [sysProcMemset]
        split
        · exact eqOn_refl ..
        · exact eqOn_write (eqOn_refl ..) (by rw [length_replicate])
    · exact Nat.le_trans (show 1 ≤ 5 by decide) hl
    · rw [h1]
      exact region_subset (by simpa using hl)

-- A patch that is not longer than what has been copied.
def Hook.Valid (h : Hook) : Prop :=
  match h.patch with
  | .jump64 _   => 14 ≤ h.minInstructionSize
  | .jump32 _ _ => 5 ≤ h.minInstructionSize

-- The bytes of a function that are patched.
abbrev Hook.patched (h : Hook) : Set Addr :=
  region h.address h.minInstructionSize.toNat

theorem Hook.Valid.apply_eqOn (hv : h.Valid) : EqOn (h.apply m) m h.patchedᶜ := by
  rw [Valid] at hv
  rw [apply]
  split
  case h_1 dst hp =>
    simp only [hp] at hv
    exact writeJump64_eqOn.mono <| compl_subset_compl.mpr <| region_mono (by omega)
  case h_2 => exact writeJump32_eqOn

-- The bytes of a function that are copied.
abbrev Installed.hooked (i : Installed) : Set Addr :=
  region i.hook.address i.size

-- The place of a block in the cave.
abbrev Installed.footprint (i : Installed) : Set Addr :=
  region i.block (i.size + 14)

-- The content of a block: the beginning of the original function, and a jump to what follows it.
abbrev Installed.content (i : Installed) (m₀ : Mem) : Bytes :=
  m₀.read i.hook.address i.size ++ jump64 (i.hook.address + .ofNat 64 i.size)

theorem Installed.length_content : (i.content m₀).length = i.size + 14 := by
  simp

-- The blocks lie side by side in the cave and have their content. Outside of the cave, only the patched
-- bytes have changed.
structure Hooked (m₀ : Mem) (cave : Addr) (is : List Installed) (s : CaveState) : Prop where
  once    : ¬s.once → is = []
  blocks  : ∀ i ∈ is, ∃ c, i.block = cave + .ofNat 64 c ∧ c + (i.size + 14) ≤ s.caveInstSize
  content : ∀ i ∈ is, s.mem.Contains i.block (i.content m₀)
  apart   : is.Pairwise fun i j : Installed => Disjoint i.footprint j.footprint
  sizes   : ∀ i ∈ is, i.hook.minInstructionSize.toNat ≤ i.size
  frame   : ∀ x ∉ region cave maxCaveSize, (∀ i ∈ is, x ∉ i.hook.patched) → s.mem x = m₀ x

namespace Hooked

theorem init : Hooked m cave [] (.init m) := by
  constructor <;> simp [CaveState.init]

variable (hk : Hooked m₀ cave is s)

include hk

theorem caveBlockInit : Hooked m₀ cave is (caveBlockInit cave s) := by
  by_cases ho : s.once
  case pos => rwa [caveBlockInit_of_once ho]
  case neg =>
    have hn := hk.once ho
    subst hn
    constructor
    case once  => exact fun _ => rfl
    case frame => exact fun x hx hp => (caveBlockInit_eqOn hx).trans (hk.frame x hx hp)
    all_goals simp

-- A new block is put behind the others.
theorem disjoint_block {n : Nat} (hs : s.caveInstSize + n ≤ maxCaveSize) (hi : i ∈ is) :
    Disjoint i.footprint (region (cave + .ofNat 64 s.caveInstSize) n) := by
  have ⟨c, hb, hc⟩ := hk.blocks i hi
  rw [Installed.footprint, hb]
  exact disjoint_region_add hc (hs.trans (by decide))

theorem footprint_subset (hs : s.caveInstSize ≤ maxCaveSize) (hi : i ∈ is) :
    i.footprint ⊆ region cave maxCaveSize := by
  have ⟨c, hb, hc⟩ := hk.blocks i hi
  rw [Installed.footprint, hb]
  exact region_subset (hc.trans hs)

-- A call of `CreatePrologueHook` alone does not change anything but the rest of the cave.
theorem createPrologueHook (ha : Admitted disasm cave s h.toHookCall)
    (hs : s.caveInstSize + (copied disasm cave s h.toHookCall + 14) ≤ maxCaveSize) :
    Hooked m₀ cave is (hookStep disasm cave s h.toHookCall) := by
  have hi := hk.caveBlockInit
  have hs' : s.caveInstSize + (block disasm cave s h.toHookCall).length ≤ maxCaveSize := by
    rwa [length_block]
  constructor
  case once   => exact fun ho => absurd ha.once_eq ho
  case apart  => exact hk.apart
  case sizes  => exact hk.sizes
  case blocks =>
    intro i hm
    have ⟨c, hb, hc⟩ := hk.blocks i hm
    exact ⟨c, hb, hc.trans (ha.caveInstSize_eq ▸ Nat.le_add_right ..)⟩
  case content =>
    intro i hm
    rw [hookStep, ha.mem_eq]
    apply (hi.content i hm).write
    rw [Installed.length_content]
    exact hk.disjoint_block hs' hm
  case frame =>
    intro x hx hp
    rw [hookStep, ha.mem_eq]
    refine (write_eqOn fun hm => hx ?_).trans (hi.frame x hx hp)
    exact region_subset hs' hm

-- The bytes that are copied are those of the original function.
theorem read_eq {a : Addr} {n : Nat} (hc : Disjoint (region a n) (region cave maxCaveSize))
    (hd : ∀ i ∈ is, Disjoint (region a n) i.hooked) : s.mem.read a n = m₀.read a n := by
  apply read_congr
  intro x hx
  refine hk.frame x (Set.disjoint_left.mp hc hx) fun i hi hp => ?_
  exact Set.disjoint_left.mp (hd i hi) hx (region_mono (hk.sizes i hi) hp)

end Hooked

theorem install_of_not_admitted (ha : ¬Admitted disasm cave s h.toHookCall) :
    install disasm cave s h = (none, caveBlockInit cave s) := by
  simp [install, createPrologueHook_of_not_admitted ha]

-- What is known about an admitted hook if the address of its block is not null.
abbrev installed (disasm : Disasm) (cave : Addr) (s : CaveState) (h : Hook) : Installed :=
  ⟨h, cave + .ofNat 64 s.caveInstSize, copied disasm cave s h.toHookCall⟩

theorem install_of_admitted (ha : Admitted disasm cave s h.toHookCall) : install disasm cave s h =
    let s' := hookStep disasm cave s h.toHookCall
    if cave + .ofNat 64 s.caveInstSize ≠ 0 then
      (some (installed disasm cave s h), { s' with mem := h.apply s'.mem })
    else (none, s') := by
  simp only [install, ha.block_addr]
  rfl

namespace Hooked

variable (hk : Hooked m₀ cave is s)

include hk

theorem patch (ha : Admitted disasm cave s h.toHookCall)
    (hs : s.caveInstSize + (copied disasm cave s h.toHookCall + 14) ≤ maxCaveSize) (hv : h.Valid)
    (hc : Disjoint (installed disasm cave s h).hooked (region cave maxCaveSize))
    (hd : ∀ i ∈ is, Disjoint (installed disasm cave s h).hooked i.hooked) :
    Hooked m₀ cave (installed disasm cave s h :: is)
      { hookStep disasm cave s h.toHookCall with mem := h.apply (hookStep disasm cave s h.toHookCall).mem } := by
  have hk' := hk.createPrologueHook ha hs
  have hs' : (hookStep disasm cave s h.toHookCall).caveInstSize ≤ maxCaveSize := by
    rwa [hookStep, ha.caveInstSize_eq]
  have hn : h.minInstructionSize.toNat ≤ copied disasm cave s h.toHookCall :=
    getInstructionSize_ge.resolve_left ha.decodes
  -- The patch does not reach the cave.
  have hp : ∀ t ⊆ region cave maxCaveSize, EqOn (h.apply (hookStep disasm cave s h.toHookCall).mem)
      (hookStep disasm cave s h.toHookCall).mem t := fun t ht =>
    hv.apply_eqOn.mono fun x hx hx' => Set.disjoint_left.mp hc (region_mono hn hx') (ht hx)
  constructor
  case once  => exact fun ho => absurd ha.once_eq ho
  case sizes => exact forall_mem_cons.mpr ⟨hn, hk.sizes⟩
  case apart =>
    exact pairwise_cons.mpr ⟨fun i hi => (hk.disjoint_block hs hi).symm, hk.apart⟩
  case blocks =>
    refine forall_mem_cons.mpr ⟨⟨s.caveInstSize, rfl, ?_⟩, hk'.blocks⟩
    exact ha.caveInstSize_eq.ge
  case content =>
    refine forall_mem_cons.mpr ⟨?_, fun i hi => ?_⟩
    case refine_2 =>
      apply (hk'.content i hi).congr
      rw [Installed.length_content]
      exact hp _ (hk'.footprint_subset hs' hi)
    case refine_1 =>
      have hb : (installed disasm cave s h).content m₀ = block disasm cave s h.toHookCall := by
        rw [Installed.content, block, hk.caveBlockInit.read_eq hc hd]
      rw [hb]
      apply Contains.congr (m := (hookStep disasm cave s h.toHookCall).mem)
      case he => exact hp _ (region_subset (by rwa [length_block]))
      case h =>
        rw [hookStep, ha.mem_eq]
        refine .write_self ?_
        rw [length_block]
        exact (Nat.le_add_left ..).trans (hs.trans (by decide))
  case frame =>
    intro x hx hp
    rw [forall_mem_cons] at hp
    exact (hv.apply_eqOn hp.left).trans (hk'.frame x hx hp.right)

-- One installation keeps all blocks that are there.
theorem install (hv : h.Valid) (hs : (install disasm cave s h).2.caveInstSize ≤ maxCaveSize)
    (hd : ∀ i ∈ (Memory.install disasm cave s h).1, Disjoint i.hooked (region cave maxCaveSize) ∧
      ∀ j ∈ is, Disjoint i.hooked j.hooked) :
    Hooked m₀ cave ((Memory.install disasm cave s h).1.toList ++ is) (Memory.install disasm cave s h).2 := by
  by_cases ha : Admitted disasm cave s h.toHookCall
  case neg =>
    rw [install_of_not_admitted ha]
    exact hk.caveBlockInit
  case pos =>
    rw [install_of_admitted ha] at hs hd ⊢
    simp only at hs hd ⊢
    split at hs <;> rw [ha.caveInstSize_eq] at hs
    case isFalse h0 =>
      rw [if_neg h0]
      exact hk.createPrologueHook ha hs
    case isTrue h0 =>
      rw [if_pos h0] at hd ⊢
      have ⟨hc, hd⟩ := hd _ rfl
      exact hk.patch ha hs hv hc hd

end Hooked

variable {hooks : List Hook}

theorem installAll_append : installAll disasm cave s (hooks ++ [h]) =
    ((install disasm cave (installAll disasm cave s hooks).2 h).1.toList ++ (installAll disasm cave s hooks).1,
      (install disasm cave (installAll disasm cave s hooks).2 h).2) := by
  simp only [installAll, foldl_append, foldl_cons, foldl_nil]

theorem caveInstSize_le_install : s.caveInstSize ≤ (install disasm cave s h).2.caveInstSize := by
  by_cases ha : Admitted disasm cave s h.toHookCall
  case neg => rw [install_of_not_admitted ha, caveBlockInit_caveInstSize]
  case pos =>
    rw [install_of_admitted ha]
    simp only
    split <;> exact ha.caveInstSize_eq ▸ Nat.le_add_right ..

theorem hooked_installAll (hv : ∀ h ∈ hooks, h.Valid)
    (hs : (installAll disasm cave (.init m) hooks).2.caveInstSize ≤ maxCaveSize)
    (hc : ∀ i ∈ (installAll disasm cave (.init m) hooks).1, Disjoint i.hooked (region cave maxCaveSize))
    (hd : (installAll disasm cave (.init m) hooks).1.Pairwise fun i j : Installed => Disjoint i.hooked j.hooked) :
    Hooked m cave (installAll disasm cave (.init m) hooks).1 (installAll disasm cave (.init m) hooks).2 := by
  induction hooks using List.reverseRecOn
  case nil => exact .init
  case append_singleton hooks h hi =>
    rw [installAll_append] at hs hc hd ⊢
    simp only at hs hc hd ⊢
    rw [forall_mem_append] at hv hc
    rw [pairwise_append] at hd
    have ⟨_, hd, hd'⟩ := hd
    have hi := hi hv.left (caveInstSize_le_install.trans hs) hc.right hd
    refine hi.install (hv.right h (by simp)) hs fun i hm => ?_
    exact ⟨hc.left i (Option.mem_toList.mpr hm), hd' i (Option.mem_toList.mpr hm)⟩

-- A block that has been returned holds the beginning of its function as it was before all hooks, and a
-- jump to the rest of it. No hook changes anything but the bytes that it patches and the cave.
theorem prologueHooks_transparent (disasm : Disasm) (cave : Addr) (m : Mem) (hooks : List Hook)
    (hv : ∀ h ∈ hooks, h.Valid)
    (hs : (installAll disasm cave (.init m) hooks).2.caveInstSize ≤ maxCaveSize)
    (hc : ∀ i ∈ (installAll disasm cave (.init m) hooks).1, Disjoint i.hooked (region cave maxCaveSize))
    (hd : (installAll disasm cave (.init m) hooks).1.Pairwise fun i j : Installed => Disjoint i.hooked j.hooked) :
    (∀ i ∈ (installAll disasm cave (.init m) hooks).1, i.hook.minInstructionSize.toNat ≤ i.size ∧
      (installAll disasm cave (.init m) hooks).2.mem.Contains i.block
        (m.read i.hook.address i.size ++ [0xff, 0x25, 0x00, 0x00, 0x00, 0x00] ++
          LittleEndian.encode 8 (i.hook.address + .ofNat 64 i.size).toNat)) ∧
    ((installAll disasm cave (.init m) hooks).1.Pairwise fun i j : Installed =>
      Disjoint (region i.block (i.size + 14)) (region j.block (j.size + 14))) ∧
    ∀ x ∉ region cave maxCaveSize, (∀ i ∈ (installAll disasm cave (.init m) hooks).1, x ∉ i.hook.patched) →
      (installAll disasm cave (.init m) hooks).2.mem x = m x := by
  have hk := hooked_installAll hv hs hc hd
  refine ⟨fun i hi => ⟨hk.sizes i hi, ?_⟩, hk.apart, hk.frame⟩
  rw [append_assoc]
  exact hk.content i hi

theorem prologueHooks_sample :
    let h₁ : Hook := ⟨⟨0x400000, 14⟩, .jump64 0x600000⟩
    let h₂ : Hook := ⟨⟨0x400100, 6⟩, .jump32 0x600100 false⟩
    let s := (installAll fiveBytes 0x500000 (.init fun _ => 0x90) [h₁, h₂]).2
    s.mem.Contains 0x500000
      (replicate 15 0x90 ++ [0xff, 0x25, 0x00, 0x00, 0x00, 0x00] ++ LittleEndian.encode 8 0x40000f) ∧
    s.mem 0x40000e = 0x90 := by
  intro h₁ h₂ s
  have hi : (installAll fiveBytes 0x500000 (.init fun _ => 0x90) [h₁, h₂]).1 =
      [⟨h₂, 0x50001d, 10⟩, ⟨h₁, 0x500000, 15⟩] := rfl
  have hv : ∀ h ∈ [h₁, h₂], h.Valid := by
    simp only [forall_mem_cons]
    exact ⟨show (14 : Int) ≤ 14 by decide, show (5 : Int) ≤ 6 by decide, by simp⟩
  have ht := prologueHooks_transparent fiveBytes 0x500000 (fun _ => 0x90) [h₁, h₂] hv (show 53 ≤ 4096 by decide)
  rw [hi] at ht
  simp only [forall_mem_cons, pairwise_cons, not_mem_nil, IsEmpty.forall_iff, implies_true, Pairwise.nil,
    and_true] at ht
  have ⟨hb, _, hf⟩ := ht
    ⟨disjoint_region (by decide) (by decide), disjoint_region (by decide) (by decide)⟩
    (disjoint_region (by decide) (by decide))
  exact ⟨hb.right.right, hf 0x40000e (by decide) ⟨by decide, by decide⟩⟩

end Memory
