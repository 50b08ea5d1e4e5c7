import HenPlugins.Memory.Theorems.Filler

open List Set Mem

namespace Memory

variable {m₀ m m' : Mem} {x a src base : Addr} {sz : Nat} {c : JmpCall} {ps : List (JmpCall × Addr)}
  {calls : List JmpCall}

-- What is required of a call before the first one is made.
structure JmpCall.Valid (m₀ : Mem) (base : Addr) (sz : Nat) (c : JmpCall) : Prop where
  src    : c.src ≠ 0 ∧ c.src ∈ region base sz
  srclen : c.srclen = 5 ∨ c.srclen = 6
  dst    : c.dst ≠ 0 ∧ c.dst.toNat < 2 ^ 47
  apart  : ∀ x ∈ region base sz, Filler m₀ x → Disjoint (region c.src c.srclen) (region x 16)

abbrev JmpCall.patched (c : JmpCall) : Set Addr :=
  Mem.region c.src c.srclen

-- The calls that found an area are given with it. Their jumps are in place, and the rest of the memory
-- is as it was.
structure Intact (m₀ : Mem) (base : Addr) (sz : Nat) (m : Mem) (ps : List (JmpCall × Addr)) : Prop where
  valid  : ∀ p ∈ ps, p.1.Valid m₀ base sz
  filler : ∀ p ∈ ps, ∃ x ∈ region base sz, Filler m₀ x ∧ region p.2 14 ⊆ region x 16
  srcs   : ∀ p ∈ ps, m.Contains p.1.src (jump32 p.1.src p.2 p.1.srclen p.1.call)
  areas  : ∀ p ∈ ps, m.Contains p.2 (jump64 p.1.dst)
  frame  : ∀ x, (∀ p ∈ ps, x ∉ p.1.patched ∧ x ∉ region p.2 14) → m x = m₀ x

theorem near_of_mem (hz : sz < 2 ^ 27) (hs : src ∈ region base sz) (hx : x ∈ region base sz)
    (ha : a ∈ region x 16) : Near (a - src - 5) := by
  simp only [mem_region, Near] at *
  bv_omega

namespace Intact

theorem nil : Intact m₀ base sz m₀ [] := by
  constructor <;> simp

variable (h : Intact m₀ base sz m ps) (hz : sz < 2 ^ 27)

include h hz

theorem near {p : JmpCall × Addr} (hp : p ∈ ps) : Near (p.2 - p.1.src - 5) := by
  have ⟨x, hx, _, hs⟩ := h.filler p hp
  have ha : p.2 ∈ region p.2 14 := by simp [mem_region]
  exact near_of_mem hz (h.valid p hp).src.right hx (hs ha)

-- No filler that is left overlaps a jump.
theorem filler_disjoint (hf : Filler m x) {p : JmpCall × Addr} (hp : p ∈ ps) :
    Disjoint (region x 16) p.1.patched ∧ Disjoint (region x 16) (region p.2 14) :=
  have hv := h.valid p hp
  ⟨hf.disjoint_jump32 (h.srcs p hp) hv.srclen (h.near hz hp), hf.disjoint_jump64 (h.areas p hp) hv.dst.right⟩

theorem decode {p : JmpCall × Addr} (hp : p ∈ ps) :
    decodeJump32 m p.1.src = some (p.1.call, p.2) ∧ decodeJump64 m p.2 = p.1.dst :=
  ⟨decodeJump32_eq (h.srcs p hp) (h.near hz hp), decodeJump64_eq (h.areas p hp)⟩

-- A filler that is found later was there from the beginning.
theorem filler_original (hf : Filler m x) : Filler m₀ x := by
  apply hf.congr
  intro y hy
  refine (h.frame y fun p hp => ?_).symm
  have ⟨hs, ha⟩ := h.filler_disjoint hz hf hp
  exact ⟨Set.disjoint_left.mp hs hy, Set.disjoint_left.mp ha hy⟩

end Intact

-- The memory after a call that found an area.
abbrev JmpCall.place (c : JmpCall) (m : Mem) (a : Addr) : Mem :=
  (m.write c.src (jump32 c.src a c.srclen c.call)).write a (jump64 c.dst)

namespace JmpCall.Valid

variable (hv : c.Valid m₀ base sz)

include hv

theorem length_jump32 : (jump32 c.src a c.srclen c.call).length = c.srclen :=
  Memory.length_jump32 (by have := hv.srclen; omega)

theorem make32to64Jmp_eq (ha : jmparea m base sz ≠ 0) :
    (make32to64Jmp m base sz c.src c.dst c.srclen c.call).2 = c.place m (jmparea m base sz) := by
  have hl := hv.srclen
  have hm : c.srclen ≤ maxMemset := by
    simp only [maxMemset]
    omega
  rw [make32to64Jmp, if_neg ha]
  simp only
  rw [writeJump32_eq hv.src.left ha (by omega) hm, writeJump64_eq]

theorem place_contains {b : Addr} {bs : Bytes} (h : m.Contains b bs)
    (hs : Disjoint (region b bs.length) c.patched) (ha : Disjoint (region b bs.length) (region a 14)) :
    (c.place m a).Contains b bs := by
  apply Contains.write (h.write ?_)
  · rwa [length_jump64]
  · rwa [hv.length_jump32]

theorem place_eq (hs : x ∉ c.patched) (ha : x ∉ region a 14) : c.place m a x = m x := by
  rw [← @length_jump64 c.dst] at ha
  rw [JmpCall.patched, ← hv.length_jump32 (a := a)] at hs
  exact (write_eqOn ha).trans (write_eqOn hs)

end JmpCall.Valid

theorem runJmps_cons : runJmps base sz m (c :: calls) =
    runJmps base sz (make32to64Jmp m base sz c.src c.dst c.srclen c.call).2 calls := rfl

theorem runJmps_append {calls' : List JmpCall} :
    runJmps base sz m (calls ++ calls') = runJmps base sz (runJmps base sz m calls) calls' :=
  foldl_append

namespace Intact

variable (h : Intact m₀ base sz m ps) (hz : sz < 2 ^ 27)

include h hz

-- A call neither uses an area again nor does it overwrite one.
theorem step (hv : c.Valid m₀ base sz) (hd : ∀ p ∈ ps, Disjoint p.1.patched c.patched)
    (ha : jmparea m base sz ≠ 0) :
    Intact m₀ base sz (make32to64Jmp m base sz c.src c.dst c.srclen c.call).2 ((c, jmparea m base sz) :: ps) := by
  have ⟨x, hx, hf, hs⟩ := exists_filler ha
  have hc : Disjoint c.patched (region (jmparea m base sz) 14) :=
    (hv.apart x hx (h.filler_original hz hf)).mono_right hs
  rw [hv.make32to64Jmp_eq ha]
  constructor
  case valid  => exact forall_mem_cons.mpr ⟨hv, h.valid⟩
  case filler => exact forall_mem_cons.mpr ⟨⟨x, hx, h.filler_original hz hf, hs⟩, h.filler⟩
  case srcs =>
    refine forall_mem_cons.mpr ⟨?_, fun p hp => ?_⟩
    case refine_1 =>
      apply Contains.write (.write_self ?_)
      · rwa [hv.length_jump32, length_jump64]
      · have := hv.srclen
        rw [hv.length_jump32]
        omega
    case refine_2 =>
      apply hv.place_contains (h.srcs p hp)
      all_goals rw [(h.valid p hp).length_jump32]
      · exact hd p hp
      · exact (h.filler_disjoint hz hf hp).left.symm.mono_right hs
  case areas =>
    refine forall_mem_cons.mpr ⟨.write_self (by simp), fun p hp => ?_⟩
    apply hv.place_contains (h.areas p hp)
    all_goals rw [length_jump64]
    · have ⟨y, hy, hfy, hsy⟩ := h.filler p hp
      exact (hv.apart y hy hfy).symm.mono_left hsy
    · exact (h.filler_disjoint hz hf hp).right.symm.mono_right hs
  case frame =>
    intro y hy
    rw [forall_mem_cons] at hy
    have ⟨⟨hy₁, hy₂⟩, hps⟩ := hy
    rw [hv.place_eq hy₁ hy₂, h.frame y hps]

theorem run (hv : ∀ c ∈ calls, c.Valid m₀ base sz) (hd : ∀ c ∈ calls, ∀ p ∈ ps, Disjoint p.1.patched c.patched)
    (hp : calls.Pairwise fun c d : JmpCall => Disjoint c.patched d.patched) :
    ∃ ps', ps ⊆ ps' ∧ Intact m₀ base sz (runJmps base sz m calls) ps' ∧
      ∀ p ∈ ps', p ∈ ps ∨ p.1 ∈ calls := by
  induction calls generalizing m ps
  case nil => exact ⟨ps, fun _ => id, h, by simp⟩
  case cons c calls hi =>
    rw [forall_mem_cons] at hv hd
    rw [pairwise_cons] at hp
    by_cases ha : jmparea m base sz = 0
    case pos =>
      have he : (make32to64Jmp m base sz c.src c.dst c.srclen c.call).2 = m := by simp [make32to64Jmp, ha]
      have ⟨ps', hs, hi, hm⟩ := hi h hv.right hd.right hp.right
      refine ⟨ps', hs, ?_, fun p hp => (hm p hp).imp_right (mem_cons_of_mem _)⟩
      rwa [runJmps_cons, he]
    case neg =>
      have hd' : ∀ d ∈ calls, ∀ p ∈ (c, jmparea m base sz) :: ps, Disjoint p.1.patched d.patched :=
        fun d hm => forall_mem_cons.mpr ⟨hp.left d hm, hd.right d hm⟩
      have ⟨ps', hs, hi, hm⟩ := hi (h.step hz hv.left hd.left ha) hv.right hd' hp.right
      refine ⟨ps', fun p hp => hs (mem_cons_of_mem _ hp), hi, fun p hp => ?_⟩
      obtain h | h := hm p hp
      case inr => exact .inr (mem_cons_of_mem _ h)
      case inl =>
        obtain rfl | h := mem_cons.mp h
        · exact .inr mem_cons_self
        · exact .inl h

end Intact

-- Whatever calls come before and after, the jumps of a call that found an area lead from its source over
-- the area to its own destination.
theorem trampolines_intact (m : Mem) (base : Addr) (sz : Nat) (pre post : List JmpCall) (c : JmpCall)
    (hz : sz < 2 ^ 27) (hv : ∀ d ∈ pre ++ c :: post, d.Valid m base sz)
    (hd : (pre ++ c :: post).Pairwise fun c d : JmpCall => Disjoint c.patched d.patched)
    (ha : jmparea (runJmps base sz m pre) base sz ≠ 0) :
    decodeJump32 (runJmps base sz m (pre ++ c :: post)) c.src =
      some (c.call, jmparea (runJmps base sz m pre) base sz) ∧
    decodeJump64 (runJmps base sz m (pre ++ c :: post)) (jmparea (runJmps base sz m pre) base sz) = c.dst := by
  rw [forall_mem_append, forall_mem_cons] at hv
  rw [pairwise_append, pairwise_cons] at hd
  have ⟨hv₁, hvc, hv₂⟩ := hv
  have ⟨hd₁, ⟨hdc, hd₂⟩, hd₃⟩ := hd
  have ⟨ps, _, hps, hm⟩ := Intact.nil.run hz hv₁ (by simp) hd₁
  have hpre : ∀ p ∈ ps, p.1 ∈ pre := fun p hp => (hm p hp).resolve_left not_mem_nil
  have hps' := hps.step hz hvc (fun p hp => hd₃ p.1 (hpre p hp) c mem_cons_self) ha
  have hd' : ∀ d ∈ post, ∀ p ∈ (c, jmparea (runJmps base sz m pre) base sz) :: ps,
      Disjoint p.1.patched d.patched := fun d hd =>
    forall_mem_cons.mpr ⟨hdc d hd, fun p hp => hd₃ p.1 (hpre p hp) d (mem_cons_of_mem _ hd)⟩
  have ⟨qs, hs, hqs, _⟩ := hps'.run hz hv₂ hd' hd₂
  rw [runJmps_append, runJmps_cons]
  exact hqs.decode hz (hs mem_cons_self)

theorem trampolines_intact_sample :
    let m : Mem := Mem.write (fun _ => 0) 0x1000 (patternToByte ud2Filler ++ patternToByte nopFiller)
    let calls : List JmpCall := [⟨0x1020, 0x7fff1234, 5, true⟩, ⟨0x1028, 0x8000, 6, false⟩]
    decodeJump32 (runJmps 0x1000 48 m calls) 0x1020 = some (true, jmparea m 0x1000 48) ∧
    decodeJump64 (runJmps 0x1000 48 m calls) (jmparea m 0x1000 48) = some 0x7fff1234 := by
  intro m calls
  have hf : ∀ i < 48, Filler m (0x1000 + .ofNat 64 i) → i = 0 ∨ i = 16 := by decide
  have hx : ∀ x ∈ region 0x1000 48, Filler m x → x = 0x1000 ∨ x = 0x1010 := by
    intro x hx hx'
    have ⟨i, hi, he⟩ := exists_of_mem_region hx
    subst he
    obtain rfl | rfl := hf i hi hx'
    · exact .inl rfl
    · exact .inr rfl
  have hv : ∀ d ∈ calls, d.Valid m 0x1000 48 := by
    simp only [calls, forall_mem_cons]
    refine ⟨?_, ?_, by simp⟩
    all_goals
      refine ⟨by decide, by decide, by decide, fun x hm hf => ?_⟩
      obtain rfl | rfl := hx x hm hf
      all_goals exact disjoint_region (by decide) (by decide)
  refine trampolines_intact m 0x1000 48 [] [⟨0x1028, 0x8000, 6, false⟩] ⟨0x1020, 0x7fff1234, 5, true⟩
    (by decide) hv ?_ (by decide)
  simp only [nil_append, pairwise_cons, forall_mem_cons, not_mem_nil, IsEmpty.forall_iff, implies_true,
    Pairwise.nil, and_true]
  exact disjoint_region (by decide) (by decide)

end Memory
