import HenPlugins.Library.Rewriting
import HenPlugins.Settings.Replace

open List CString CharArray Rewriting

namespace Settings

variable {input pos search replacement array text s : Bytes} {mode : ReplaceMode} {fuel : Nat} {h : search ≠ []}

-- What a mode is meant to do, and what `REPLACE_LINE` does.
def ReplaceMode.rule (mode : ReplaceMode) (search replacement : Bytes) (h : search ≠ []) : Rule UInt8 :=
  match mode with
  | .replaceMatch => replacing search replacement h
  | .addBefore    => replacing search (replacement ++ search) h
  | .addAfter     => replacing search (search ++ replacement) h
  | .replaceLine  => replacingRest lf search replacement h

-- An array whose beginning has been filled.
def filled (array text : Bytes) : Output where
  array  := text ++ array.drop text.length
  outLen := text.length

theorem filled_append (h : (text ++ s).length ≤ array.length) :
    (filled array text).append s = some (filled array (text ++ s)) := by
  simp only [Output.append, filled, memcpy_append h]
  simp

theorem filled_bind {k : Output → Option Output} (h : (text ++ s).length ≤ array.length) :
    (filled array text).append s >>= k = k (filled array (text ++ s)) := by
  rw [filled_append h]
  rfl

theorem filled_bind_bind {s' : Bytes} {k : Output → Option Output} (h : (text ++ (s ++ s')).length ≤ array.length) :
    ((filled array text).append s >>= fun output => output.append s' >>= k) =
      k (filled array (text ++ (s ++ s'))) := by
  rw [← append_assoc] at h ⊢
  have hs : (text ++ s).length ≤ array.length := by
    rw [length_append] at h
    omega
  rw [filled_bind hs, filled_bind h]

theorem filled_length (h : text.length ≤ array.length) : (filled array text).array.length = array.length := by
  simp only [filled, length_append, length_drop]
  omega

theorem apply_eq_none_iff : (mode.rule search replacement h).apply pos = none ↔ ¬startsWith pos search := by
  cases mode
  case replaceLine => exact replaceRestAt_eq_none_iff
  all_goals exact replaceAt_eq_none_iff

-- There is a check for another character and one for the replacement.
theorem ite_room {β : Type*} {n k last : Nat} {x y : β} :
    (if n < last then if n + k ≥ last then y else x else y) = if n + k < last then x else y := by
  split_ifs
  all_goals first | rfl | omega

-- What is put in place of the beginning of the text has to leave room for another character besides the
-- terminator.
theorem strReplaceLoop_of_some {r : Replacement UInt8} (hr : (mode.rule search replacement h).apply pos = some r)
    (ht : text.length < array.length) :
    strReplaceLoop search replacement mode (fuel + 1) pos (filled array text) =
      if text.length + r.room < array.length - 1 then
        strReplaceLoop search replacement mode fuel r.rest (filled array (text ++ r.new))
      else some (filled array text) := by
  have hs : startsWith pos search := by
    by_contra hn
    simp [apply_eq_none_iff.mpr hn] at hr
  have hl := filled_length ht.le
  have ho : (filled array text).outLen = text.length := rfl
  cases pos
  case nil => simp [Rule.apply_nil] at hr
  case cons c pos =>
    have ht' := prefix_iff_eq_take.mp <| isPrefixOf_iff_prefix.mp hs
    have hb {s : Bytes} (hs : text.length + s.length < array.length - 1) : (text ++ s).length ≤ array.length := by
      rw [length_append]
      omega
    cases mode
    case replaceMatch =>
      obtain ⟨_, hr⟩ := replaceAt_eq_some.mp hr
      rw [strReplaceLoop]
      simp only [hl, ho, hs, if_true, ite_room, hr]
      split
      case isFalse   => rfl
      case isTrue hn => exact filled_bind (hb hn)
    case addBefore =>
      obtain ⟨_, hr⟩ := replaceAt_eq_some.mp hr
      rw [strReplaceLoop]
      simp only [hl, ho, hs, if_true, ite_room, hr, length_append, Nat.add_assoc, ← ht']
      split
      case isFalse   => rfl
      case isTrue hn => exact filled_bind_bind (hb (by rwa [length_append]))
    case addAfter =>
      obtain ⟨_, hr⟩ := replaceAt_eq_some.mp hr
      rw [strReplaceLoop]
      simp only [hl, ho, hs, if_true, ite_room, hr, length_append, Nat.add_assoc, ← ht']
      split
      case isFalse   => rfl
      case isTrue hn => exact filled_bind_bind (hb (by rwa [length_append]))
    case replaceLine =>
      rw [strReplaceLoop]
      simp only [hl, ho, hs, if_true, ite_room, Nat.add_assoc]
      cases hd : (c :: pos).dropWhile (· ≠ lf)
      case nil =>
        rw [← Option.some.inj ((replaceRestAt_last hs hd).symm.trans hr)]
        split
        case isFalse   => rfl
        case isTrue hn => exact filled_bind (hb (by omega))
      case cons b pos =>
        rw [← Option.some.inj ((replaceRestAt_line hs hd).symm.trans hr)]
        split
        case isFalse   => rfl
        case isTrue hn => exact filled_bind_bind (hb (by simpa using hn))

theorem strReplaceLoop_of_none {c : UInt8} (hr : (mode.rule search replacement h).apply (c :: pos) = none)
    (ht : text.length < array.length) :
    strReplaceLoop search replacement mode (fuel + 1) (c :: pos) (filled array text) =
      if text.length < array.length - 1 then
        strReplaceLoop search replacement mode fuel pos (filled array (text ++ [c]))
      else some (filled array text) := by
  have hs := apply_eq_none_iff.mp hr
  have hl := filled_length ht.le
  have ho : (filled array text).outLen = text.length := rfl
  have ha : (filled array text).append [c] = some (filled array (text ++ [c])) :=
    filled_append (by simpa using ht)
  cases mode
  all_goals
    rw [strReplaceLoop]
    simp only [hl, ho, if_neg hs, ha, Option.bind_eq_bind, Option.bind_some]

theorem strReplaceLoop_eq (h : search ≠ []) (hf : pos.length < fuel) (ht : text.length < array.length) :
    strReplaceLoop search replacement mode fuel pos (filled array text) = some (filled array
      (text ++ cut (array.length - 1) text.length ((mode.rule search replacement h).pieces pos))) := by
  induction pos using (mode.rule search replacement h).induction generalizing fuel text
  case nil =>
    cases fuel
    case zero      => exact absurd hf (Nat.not_lt_zero _)
    case succ fuel => simp [strReplaceLoop, cut]
  case new pos r hr hi =>
    cases fuel
    case zero => exact absurd hf (Nat.not_lt_zero _)
    case succ fuel =>
      have hl := (mode.rule search replacement h).shorter hr
      have hn := r.fits
      rw [strReplaceLoop_of_some hr ht, Rule.pieces_of_some hr, cut]
      split
      case isFalse => simp
      case isTrue ho =>
        rw [hi (by omega) (by rw [length_append]; omega), length_append, append_assoc]
  case kept c pos hr hi =>
    cases fuel
    case zero => exact absurd hf (Nat.not_lt_zero _)
    case succ fuel =>
      rw [length_cons] at hf
      rw [strReplaceLoop_of_none hr ht, Rule.pieces_of_none hr, cut]
      split
      case isFalse => simp
      case isTrue ho =>
        rw [hi (by omega) (by rw [length_append, length_singleton]; omega), length_append, append_assoc]
        simp

-- As much of the rewritten text as there is room for.
def fitting (mode : ReplaceMode) (search replacement : Bytes) (h : search ≠ []) (size : Nat) (input : Bytes) : Bytes :=
  (mode.rule search replacement h).fit (size - 1) input

theorem length_fitting_lt {size : Nat} (hs : 0 < size) : (fitting mode search replacement h size input).length < size := by
  have := @Rule.length_fit_le _ (mode.rule search replacement h) (size - 1) input
  rw [fitting]
  omega

-- Nothing is written outside of the array, and the text in it is terminated.
theorem strReplace_eq (h : search ≠ []) (ha : 0 < array.length) (hf : input.length < fuel) :
    strReplace fuel input search replacement array mode =
      some (fitting mode search replacement h array.length input ++
        0 :: array.drop ((fitting mode search replacement h array.length input).length + 1)) := by
  have hl := @length_fitting_lt input search replacement mode h _ ha
  have he := @strReplaceLoop_eq _ _ replacement _ [] mode _ h hf ha
  rw [nil_append] at he
  change _ = some (filled array (fitting mode search replacement h array.length input)) at he
  rw [strReplace, show (⟨array, 0⟩ : Output) = filled array [] from rfl, he, Option.bind_eq_bind, Option.bind_some,
    filled, memcpy_append (by simpa using hl)]
  simp

theorem zero_not_mem_rewrite (hi : 0 ∉ input) (hs : 0 ∉ search) (hr : 0 ∉ replacement) :
    0 ∉ (mode.rule search replacement h).rewrite input := by
  have hp {new : Bytes} (hn : 0 ∉ new) : ∀ s r, (replacing search new h).apply s = some r →
      (∀ c ∈ r.new, c ≠ 0) ∧ r.rest ⊆ s := by
    intro s r hr
    have ⟨_, hr⟩ := replaceAt_eq_some.mp hr
    exact hr ▸ ⟨fun c hc h0 => hn (h0 ▸ hc), drop_subset ..⟩
  have hi' : ∀ c ∈ input, c ≠ 0 := fun c hc h0 => hi (h0 ▸ hc)
  refine fun h0 => Rule.forall_mem_rewrite ?_ hi' 0 h0 rfl
  cases mode
  case replaceMatch => exact hp hr
  case addBefore    => exact hp (by simp [hr, hs])
  case addAfter     => exact hp (by simp [hr, hs])
  case replaceLine  =>
    intro s r ha
    have ⟨hn, _, hs⟩ := of_replaceRestAt ha
    have h0 : 0 ∉ replacement ++ [lf] := by simp [hr]
    exact ⟨fun c hc hz => h0 (hz ▸ hn hc), hs⟩

theorem cstr_fitting {size : Nat} {t : Bytes} (hi : 0 ∉ input) (hs : 0 ∉ search) (hr : 0 ∉ replacement) :
    cstr (fitting mode search replacement h size input ++ 0 :: t) = fitting mode search replacement h size input :=
  cstr_terminated fun h0 => zero_not_mem_rewrite hi hs hr <| Rule.fit_prefix.mem h0

-- What is put in place of an occurrence.
def ReplaceMode.newText (mode : ReplaceMode) (search replacement : Bytes) : Bytes :=
  match mode with
  | .replaceMatch | .replaceLine => replacement
  | .addBefore                   => replacement ++ search
  | .addAfter                    => search ++ replacement

theorem rule_eq (hm : mode ≠ .replaceLine) :
    mode.rule search replacement h = replacing search (mode.newText search replacement) h := by
  cases mode
  case replaceLine => exact absurd rfl hm
  all_goals rfl

theorem strReplace_text (mode : ReplaceMode) (fuel : Nat) (input search replacement array : Bytes)
    (hm : mode ≠ .replaceLine) (hi : 0 ∉ input) (hs : 0 ∉ search) (hr : 0 ∉ replacement) (h : search ≠ [])
    (ha : 1 ≤ array.length) (hf : input.length < fuel) :
    let reference := (replacing search (mode.newText search replacement) h).rewrite input
    ∃ array', strReplace fuel input search replacement array mode = some array' ∧
      array'.length = array.length ∧ 0 ∈ array' ∧ cstr array' <+: reference ∧
      (reference.length + 2 ≤ array.length → cstr array' = reference) := by
  intro reference
  have hl := @length_fitting_lt input search replacement mode h _ ha
  refine ⟨_, strReplace_eq h ha hf, ?_, by simp, ?_, fun hl => ?_⟩
  case refine_1 =>
    simp only [length_append, length_cons, length_drop]
    omega
  case refine_2 =>
    rw [cstr_fitting hi hs hr]
    rw [fitting, rule_eq hm]
    exact Rule.fit_prefix
  case refine_3 =>
    rw [cstr_fitting hi hs hr, fitting, rule_eq hm]
    apply Rule.fit_eq_rewrite (k := 0)
    case hk => exact fun s r hr => (replaceAt_eq_some.mp hr).right ▸ le_rfl
    case h  => exact Nat.lt_sub_of_add_lt hl

theorem strReplace_text_sample :
    let reference := (replacing (bytes "--") (bytes "--+") (by decide)).rewrite (bytes "a--b-")
    ∃ array', strReplace 6 (bytes "a--b-") (bytes "--") (bytes "+") (replicate 8 0xff) .addAfter = some array' ∧
      array'.length = 8 ∧ 0 ∈ array' ∧ cstr array' <+: reference := by
  intro reference
  have ⟨array', he, hl, h0, hp, _⟩ := strReplace_text .addAfter 6 (bytes "a--b-") (bytes "--") (bytes "+")
    (replicate 8 0xff) (by decide) (by decide) (by decide) (by decide) (by decide) (by decide) (by decide)
  exact ⟨array', he, hl, h0, hp⟩

-- An array in which every line could be replaced.
abbrev Roomy (input replacement array : Bytes) : Prop :=
  input.length + (input.splitOn lf).length * replacement.length + 3 ≤ array.length

theorem cstr_strReplace_lines (hi : 0 ∉ input) (hs : 0 ∉ search) (hr : 0 ∉ replacement) (hl : lf ∉ search)
    (h : search ≠ []) (ha : Roomy input replacement array) (hf : input.length < fuel) :
    (strReplace fuel input search replacement array .replaceLine).map cstr =
      some ((replacingRest lf search replacement h).rewrite input) := by
  have ha' : 0 < array.length := by
    rw [Roomy] at ha
    omega
  rw [strReplace_eq h ha' hf, Option.map_some, cstr_fitting hi hs hr, fitting, Option.some_inj]
  apply Rule.fit_eq_rewrite (k := 1)
  case hk => exact fun s r hr => (of_replaceRestAt hr).2.1
  case h =>
    have hr := @length_rewrite_le _ _ _ _ replacement input h hl
    rw [Roomy] at ha
    rw [ReplaceMode.rule]
    omega

-- The text before an occurrence has been put out when the line is replaced, so it has to be empty.
theorem strReplace_lines_iff (fuel : Nat) (input search replacement array : Bytes) (hi : 0 ∉ input) (hs : 0 ∉ search)
    (hr : 0 ∉ replacement) (h : search ≠ []) (hl : lf ∉ search) (ha : Roomy input replacement array)
    (hf : input.length < fuel) :
    (strReplace fuel input search replacement array .replaceLine).map cstr =
        some ([lf].intercalate ((input.splitOn lf).map (replaceLine search replacement))) ↔
      ∀ l ∈ input.splitOn lf, search <:+: l → search <+: l := by
  rw [cstr_strReplace_lines hi hs hr hl h ha hf, Option.some_inj, rewrite_eq_lines_iff hl]

theorem strReplace_lines_sample :
    (strReplace 8 (bytes "a=1\nb=2") (bytes "a=") (bytes "a=3") (replicate 20 0) .replaceLine).map cstr =
      some ([lf].intercalate (((bytes "a=1\nb=2").splitOn lf).map (replaceLine (bytes "a=") (bytes "a=3")))) :=
  (strReplace_lines_iff 8 (bytes "a=1\nb=2") (bytes "a=") (bytes "a=3") (replicate 20 0) (by decide) (by decide)
    (by decide) (by decide) (by decide) (by decide) (by decide)).mpr (by decide)

-- The beginning of the line is kept.
theorem strReplace_keeps_text_before :
    let output := (strReplace 8 (bytes "x a=1\nb") (bytes "a=") (bytes "a=3") (replicate 20 0) .replaceLine).map cstr
    output = some (bytes "x a=3\nb") ∧
    output ≠ some ([lf].intercalate (((bytes "x a=1\nb").splitOn lf).map (replaceLine (bytes "a=") (bytes "a=3")))) := by
  intro output
  constructor
  all_goals decide

end Settings
