import HenPlugins.Memory.PatternCursor
import HenPlugins.Memory.Theorems.Signature

open List CString StateTransition

namespace Memory.PatternCursor

variable {pattern s t : Bytes} {bytes : BitVec 32 → UInt8} {o : Output} {i k fuel : Nat} {a b : State} {c : UInt8}

-- What `strtoull` leaves is the end of what it is given.
theorem strtoull_suffix (s : Bytes) : (strtoull s).2 <:+ s := by
  have hg : ∀ t, (strtoullSign t).2 <:+ t := by
    intro t
    fun_cases strtoullSign t
    all_goals simp
  have hp : ∀ t, strtoullPrefix t <:+ t := by
    intro t
    fun_cases strtoullPrefix t
    case case1 => exact ⟨[48, _], rfl⟩
    all_goals exact suffix_rfl
  have hd : strtoullPrefix (strtoullSign (s.dropWhile isspace)).2 <:+ s :=
    (hp _).trans <| (hg _).trans (dropWhile_suffix _)
  simp only [strtoull]
  split_ifs
  case pos => exact suffix_rfl
  all_goals exact (drop_suffix ..).trans hd

theorem drop_strtoullAt : pattern.drop (strtoullAt pattern k).2 = (strtoull (pattern.drop k)).2 :=
  (suffix_iff_eq_drop.mp ((strtoull_suffix _).trans (drop_suffix k pattern))).symm

theorem charAt_eq_iff (hc : c ≠ 0) : charAt pattern k = c ↔ (pattern.drop k).head? = some c := by
  rw [charAt, head?_drop, getD_eq_getElem?_getD]
  cases pattern[k]?
  case none   => simp [hc.symm]
  case some b => simp

section Cursor

-- The cursor does not leave the string, except that the loop steps over its terminator.
def Inside (pattern : Bytes) (s : State) : Prop :=
  s.current ≤ if s.point = .condition then pattern.length + 1 else pattern.length

theorem Inside.le (h : Inside pattern a) : a.current ≤ pattern.length + 1 := by
  rw [Inside] at h
  split at h
  case isTrue  => exact h
  case isFalse => exact Nat.le_succ_of_le h

theorem lt_of_charAt_ne (h : charAt pattern k ≠ 0) : k < pattern.length := by
  by_contra hk
  exact h (getD_eq_default _ _ (not_lt.mp hk))

theorem Inside.step (hs : step pattern a = some b) (h : Inside pattern a) : Inside pattern b := by
  obtain ⟨point, current, o⟩ := a
  cases point
  case condition =>
    rw [PatternCursor.step] at hs
    dsimp only at hs
    split at hs
    case isFalse   => contradiction
    case isTrue hl =>
      split at hs
      all_goals obtain rfl := Option.some.inj hs
      case isTrue  => exact hl
      case isFalse => exact Nat.sub_le ..
  case wildcard =>
    obtain rfl := Option.some.inj hs
    rw [Inside]
    dsimp only
    split
    case isTrue hc => exact lt_of_charAt_ne (by rw [hc]; decide)
    case isFalse   => exact h
  case increment =>
    obtain rfl := Option.some.inj hs
    exact Nat.succ_le_succ h

theorem inside_of_reaches (h : Reaches (step pattern) (.start bytes) a) : Inside pattern a :=
  Run.invariant h (fun _ _ hs hi => hi.step hs) (Nat.zero_le _)

end Cursor

section Output

variable {vs : Bytes}

theorem count_foldl_store : (vs.foldl .store o).count = o.count + .ofNat 32 vs.length := by
  induction vs using List.reverseRecOn
  case nil                   => simp
  case append_singleton vs v hi =>
    rw [foldl_append, foldl_cons, foldl_nil, Output.store, hi, length_append, BitVec.ofNat_add, BitVec.add_assoc]
    rfl

-- Up to the size of the counter, the bytes are stored one behind the other.
theorem bytes_foldl_store (hl : vs.length ≤ 2 ^ 32) (hi : i < vs.length) :
    (vs.foldl .store o).bytes (o.count + .ofNat 32 i) = vs[i] := by
  induction vs using List.reverseRecOn
  case nil                         => exact absurd hi (Nat.not_lt_zero i)
  case append_singleton vs v hvs =>
    rw [length_append, length_singleton] at hl hi
    simp only [foldl_append, foldl_cons, foldl_nil, Output.store, count_foldl_store]
    by_cases he : i = vs.length
    case pos =>
      subst he
      rw [Function.update_self, getElem_concat_length rfl]
    case neg =>
      have hlt : i < vs.length := by omega
      have hne : o.count + BitVec.ofNat 32 i ≠ o.count + BitVec.ofNat 32 vs.length := by
        intro hc
        have hc := congrArg BitVec.toNat (BitVec.add_right_inj _ |>.mp hc)
        rw [BitVec.toNat_ofNat, BitVec.toNat_ofNat, Nat.mod_eq_of_lt (by omega), Nat.mod_eq_of_lt (by omega)] at hc
        exact he hc
      rw [Function.update_of_ne hne, hvs (by omega) hlt, getElem_append_left hlt]

end Output

theorem patternToByteLoop_cons : patternToByteLoop (fuel + 1) (c :: s) =
    if c = question then 0xff :: patternToByteLoop fuel ((if s.head? = question then s.drop 1 else s).drop 1)
    else (strtoull (c :: s)).1.toUInt8 :: patternToByteLoop fuel ((strtoull (c :: s)).2.drop 1) := rfl

-- A round consumes what a step of the loop on what is left of the pattern consumes.
theorem halts_loop (hd : pattern.drop k = s) (hf : s.length ≤ fuel) :
    Run.Halts (step pattern) ⟨.condition, k, o⟩ (·.output = (patternToByteLoop fuel s).foldl .store o) := by
  have hend {k : Nat} {o : Output} (hd : pattern.drop k = []) :
      Run.Halts (step pattern) ⟨.condition, k, o⟩ (·.output = o) := by
    have hs : step pattern ⟨.condition, k, o⟩ = none := if_neg (not_lt.mpr (drop_eq_nil_iff.mp hd))
    exact Run.halts_iff_of_final hs |>.mpr rfl
  have hnext {k : Nat} {o : Output} : step pattern ⟨.increment, k, o⟩ = some ⟨.condition, k + 1, o⟩ := rfl
  induction fuel generalizing k s o
  case zero =>
    obtain rfl := length_eq_zero_iff.mp (Nat.le_zero.mp hf)
    exact hend hd
  case succ fuel hi =>
    cases s
    case nil => exact hend hd
    case cons c s =>
      have hk : k < pattern.length := by
        by_contra hk
        rw [drop_of_length_le (not_lt.mp hk)] at hd
        contradiction
      have hs : pattern.drop (k + 1) = s := by rw [← drop_drop, hd, drop_one, tail_cons]
      rw [length_cons] at hf
      rw [patternToByteLoop_cons]
      split
      case isTrue hq =>
        have hc : charAt pattern k = question := (charAt_eq_iff (by decide)).mpr (by rw [hd, hq]; rfl)
        have h₁ : step pattern ⟨.condition, k, o⟩ = some ⟨.wildcard, k + 1, o⟩ := by
          simp only [step, if_pos hk, if_pos hc]
        have h₂ : step pattern ⟨.wildcard, k + 1, o⟩ = some ⟨.increment,
            if charAt pattern (k + 1) = question then k + 1 + 1 else k + 1, o.store 0xff⟩ := rfl
        rw [Run.halts_iff_of_step h₁, Run.halts_iff_of_step h₂, Run.halts_iff_of_step hnext]
        simp only [charAt_eq_iff (c := question) (by decide), hs]
        split
        case isTrue  => exact hi (by rw [← hs, drop_drop, drop_drop]) (by simp; omega)
        case isFalse => exact hi (by rw [← drop_drop, hs]) (by simp; omega)
      case isFalse hq =>
        have hc : charAt pattern k ≠ question := by
          rw [Ne, charAt_eq_iff (by decide), hd]
          exact fun he => hq (Option.some.inj he)
        have h₁ : step pattern ⟨.condition, k, o⟩ =
            some ⟨.increment, (strtoullAt pattern k).2, o.store (strtoull (c :: s)).1.toUInt8⟩ := by
          simp only [step, if_pos hk, if_neg hc, strtoullAt, hd]
        have hl := (strtoull_suffix (c :: s)).length_le
        rw [length_cons] at hl
        rw [Run.halts_iff_of_step h₁, Run.halts_iff_of_step hnext]
        have hr : pattern.drop ((strtoullAt pattern k).2 + 1) = (strtoull (c :: s)).2.drop 1 := by
          rw [← drop_drop, drop_strtoullAt, hd]
        exact hi hr (by simp; omega)

section Words

-- The ways to write a token, with one or two digits for a byte.
inductive Written : Token → Bytes → Prop
  | digit {c : UInt8} {x : Nat} (hx : hexDigit c = some x) : Written (.literal x.toUInt8) [c]
  | spells {t : Token} {w : Bytes} (h : t.Spells w) : Written t w

variable {token : Token} {ts : List Token} {w : Bytes} {ws : List Bytes}

theorem Written.length_pos (h : Written token w) : 0 < w.length := by
  cases h
  case digit    => exact Nat.one_pos
  case spells h => exact Signature.length_pos h

theorem Written.patternToByteLoop (h : Written token w) (hs : ∀ c ∈ s.head?, c = space) :
    patternToByteLoop (fuel + 1) (w ++ s) = token.byte :: Memory.patternToByteLoop fuel (s.drop 1) := by
  cases h
  case spells h  => exact Signature.patternToByteLoop_token h hs
  case digit hx  =>
    have hn : ∀ c ∈ s.head?, hexDigit c = none ∧ c ≠ 120 ∧ c ≠ 88 := fun c hc => hs c hc ▸ by decide
    have hq : _ ≠ question := ne_of_hexDigit hx
    rw [singleton_append, patternToByteLoop_cons, if_neg hq, strtoull_single hx hn]
    rfl

theorem patternToByteLoop_words (h : Forall₂ Written ts ws) (hf : ([space].intercalate ws).length ≤ fuel) :
    patternToByteLoop fuel ([space].intercalate ws) = ts.map Token.byte := by
  induction h generalizing fuel
  case nil =>
    rw [intercalate_nil]
    cases fuel
    all_goals rfl
  case cons t w ts ws ht hts hi =>
    have hw := ht.length_pos
    cases hts
    case nil =>
      rw [intercalate_singleton] at hf ⊢
      obtain ⟨fuel, rfl⟩ := Nat.exists_eq_add_of_le' (hw.trans_le hf)
      have he : Memory.patternToByteLoop (fuel + 1) (w ++ []) = _ := ht.patternToByteLoop (by simp)
      rw [append_nil] at he
      rw [he]
      cases fuel
      all_goals rfl
    case cons =>
      rw [intercalate_cons_cons, append_assoc] at hf ⊢
      simp only [length_append, length_singleton] at hf
      obtain ⟨fuel, rfl⟩ := Nat.exists_eq_add_of_le' (hw.trans_le (Nat.le_of_add_right_le hf))
      rw [ht.patternToByteLoop (by simp), singleton_append, drop_one, tail_cons, hi (by omega)]
      rfl

end Words

-- The count and the bytes of `patternToByte` are stored one after the other.
theorem halts_start : Run.Halts (step pattern) (.start bytes)
    (·.output = (patternToByte pattern).foldl .store ⟨0, bytes⟩) :=
  halts_loop rfl le_rfl

theorem patternToByte_decodes (pattern : Bytes) (bytes : BitVec 32 → UInt8) :
    Run.Halts (step pattern) (.start bytes) (fun _ => True) ∧
      (∀ s, Reaches (step pattern) (.start bytes) s → s.current ≤ pattern.length + 1) ∧
        ∀ ts words, Forall₂ Written ts words → ts.length < maxPatternLength → pattern = [space].intercalate words →
          Run.Halts (step pattern) (.start bytes) fun s => s.output.count.toNat = ts.length ∧
            ∀ i (h : i < ts.length), s.output.bytes (.ofNat 32 i) = ts[i].byte := by
  have ⟨s, hr, hs, ho⟩ := @halts_start pattern bytes
  refine ⟨⟨s, hr, hs, trivial⟩, fun _ h => (inside_of_reaches h).le, ?_⟩
  rintro ts words hw hl rfl
  have hp : patternToByte ([space].intercalate words) = ts.map Token.byte := patternToByteLoop_words hw le_rfl
  rw [maxPatternLength] at hl
  have hc : s.output.count.toNat = ts.length := by
    rw [ho, hp, count_foldl_store, length_map, zero_add, BitVec.toNat_ofNat, Nat.mod_eq_of_lt (by omega)]
  refine ⟨s, hr, hs, hc, fun i hi => ?_⟩
  have hb := @bytes_foldl_store ⟨0, bytes⟩ i (ts.map Token.byte) (by rw [length_map]; omega) (by rwa [length_map])
  rw [zero_add, getElem_map] at hb
  rw [ho, hp, hb]

-- The pattern `4C ? A ??`
theorem patternToByte_decodes_sample :
    Run.Halts (step [52, 67, 32, 63, 32, 65, 32, 63, 63]) (.start fun _ => 0) fun s => s.output.count.toNat = 4 ∧
      ∀ i (h : i < 4), s.output.bytes (.ofNat 32 i) = [0x4c, 0xff, 10, 0xff][i] := by
  have hw : Forall₂ Written [.literal 0x4c, .wildcard, .literal 10, .wildcard] [[52, 67], [63], [65], [63, 63]] :=
    .cons (.spells (.literal (x := 4) (y := 12) rfl rfl)) <| .cons (.spells .question) <|
      .cons (.digit (x := 10) rfl) <| .cons (.spells .questions) .nil
  have ⟨s, hr, hs, hc, hb⟩ := (patternToByte_decodes [52, 67, 32, 63, 32, 65, 32, 63, 63] fun _ => 0).right.right
    _ _ hw (by decide) (by decide)
  refine ⟨s, hr, hs, hc, fun i hi => (hb i hi).trans ?_⟩
  interval_cases i
  all_goals rfl

end Memory.PatternCursor
