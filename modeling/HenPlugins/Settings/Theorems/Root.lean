import HenPlugins.Settings.Theorems.Replace

open List CString CharArray Rewriting

namespace Settings

variable {xml text s : Bytes} {fuel : Nat}

-- The two replacements, and what `xml` becomes if there is enough room.

theorem sandboxLink_ne : sandboxLink ≠ [] := by
  decide

theorem psnFocus_ne : psnFocus ≠ [] := by
  decide

def patched (xml : Bytes) : Bytes :=
  (ReplaceMode.replaceLine.rule psnFocus henSettingsFocus psnFocus_ne).rewrite <|
    (ReplaceMode.addBefore.rule sandboxLink henSettingsLink sandboxLink_ne).rewrite xml

-- The text in `buf2`.
def fittingPatched (xml : Bytes) : Bytes :=
  fitting .replaceLine psnFocus henSettingsFocus psnFocus_ne maxBuf <|
    fitting .addBefore sandboxLink henSettingsLink sandboxLink_ne maxBuf xml

-- Nothing is written outside of the buffers, and `buf_fixed` holds a text that is marked as UTF-8.
def Patched (fuel : Nat) (xml : Bytes) : Prop :=
  ∃ bufFixed buflen text, setupSettingsRoot fuel xml = some (bufFixed, buflen) ∧
    bufFixed.take buflen = bomHeader ++ text ∧ text <+: patched xml ∧ bufFixed[buflen]? = some 0

theorem zero_not_mem_fitting {mode : ReplaceMode} {search replacement input : Bytes} {h : search ≠ []} {size : Nat}
    (hi : 0 ∉ input) (hs : 0 ∉ search) (hr : 0 ∉ replacement) : 0 ∉ fitting mode search replacement h size input :=
  fun h0 => zero_not_mem_rewrite hi hs hr <| Rule.fit_prefix.mem h0

theorem exists_strReplace_eq {mode : ReplaceMode} {input search replacement array : Bytes} {size : Nat}
    (h : search ≠ []) (ha : array.length = size) (hs : 0 < size) (hf : input.length < fuel) :
    ∃ t, strReplace fuel input search replacement array mode =
      some (fitting mode search replacement h size input ++ 0 :: t) :=
  ⟨_, ha ▸ strReplace_eq h (ha ▸ hs) hf⟩

-- The text is copied behind the BOM, although the buffer is not larger than the one it has been in.
theorem copy_eq (h : 0 ∉ text) :
    (do
      let buf ← memcpy (replicate maxBuf 0) 0 bomHeader
      let buf ← strcat buf text
      let bufFixed ← memcpy (replicate maxBuf 0) 0 (← string buf)
      return (bufFixed, ← strlen bufFixed)) =
    if text.length ≤ 8188 then
      some (bomHeader ++ text ++ 0 :: replicate (8188 - text.length) 0, text.length + 3)
    else none := by
  have hm : memcpy (replicate maxBuf 0) 0 bomHeader = some (bomHeader ++ 0 :: replicate 8188 0) :=
    memcpy_zeros (by decide)
  have hz : 0 ∉ bomHeader ++ text := by simp [bomHeader, h]
  have hb : (bomHeader ++ text).length = text.length + 3 := by simp [bomHeader]
  rw [hm, Option.bind_eq_bind, Option.bind_some, strcat_terminated (by decide), length_replicate]
  split
  case isFalse => rfl
  case isTrue hl =>
    have hc : memcpy (replicate maxBuf 0) 0 (bomHeader ++ text) =
        some (bomHeader ++ text ++ 0 :: replicate (8191 - (bomHeader ++ text).length) 0) := memcpy_zeros (by omega)
    rw [Option.bind_some, string_terminated hz, Option.bind_some, hc, Option.bind_some, strlen_terminated hz,
      hb, Nat.add_comm, Nat.sub_add_eq]
    rfl

theorem setupSettingsRoot_eq (hx : 0 ∉ xml) (hf : xml.length < fuel) (hb : maxBuf ≤ fuel) :
    setupSettingsRoot fuel xml = if (fittingPatched xml).length ≤ 8188 then
        some (bomHeader ++ fittingPatched xml ++ 0 :: replicate (8188 - (fittingPatched xml).length) 0,
          (fittingPatched xml).length + 3)
      else none := by
  have hz : 0 ∉ fitting .addBefore sandboxLink henSettingsLink sandboxLink_ne maxBuf xml :=
    zero_not_mem_fitting hx (by decide) (by decide)
  have hl := @length_fitting_lt xml sandboxLink henSettingsLink .addBefore sandboxLink_ne maxBuf (by decide)
  have hz' : 0 ∉ fittingPatched xml := zero_not_mem_fitting hz (by decide) (by decide)
  obtain ⟨t, he⟩ := @exists_strReplace_eq fuel .addBefore xml _ henSettingsLink (replicate maxBuf 0) maxBuf
    sandboxLink_ne length_replicate (by decide) hf
  rw [setupSettingsRoot, he, Option.bind_eq_bind, Option.bind_some, string_terminated hz, Option.bind_some]
  rw [fittingPatched] at hz' ⊢
  generalize fitting .addBefore sandboxLink henSettingsLink sandboxLink_ne maxBuf xml = text at *
  have hs : strcat (replicate maxBuf 0) text = some (text ++ 0 :: replicate (8191 - text.length) 0) :=
    strcat_zeros (Nat.le_of_lt_succ hl)
  have ha : (text ++ 0 :: replicate (8191 - text.length) 0).length = maxBuf := by
    simp only [length_append, length_cons, length_replicate, maxBuf] at *
    omega
  obtain ⟨t', he'⟩ := @exists_strReplace_eq fuel .replaceLine text _ henSettingsFocus _ maxBuf psnFocus_ne ha
    (by decide) (hl.trans_le hb)
  rw [hs, Option.bind_some, he', Option.bind_some, ← copy_eq hz']
  simp only [string_terminated hz', Option.bind_eq_bind, Option.bind_some]

-- The focus rule replaces no more than `search`, since that is the end of a line.

theorem linkRule_eq : ReplaceMode.addBefore.rule sandboxLink henSettingsLink sandboxLink_ne =
    replacing sandboxLink (tab :: (henSettingsLink ++ sandboxLink).tail) sandboxLink_ne := rfl

theorem focusRule_eq : ReplaceMode.replaceLine.rule psnFocus henSettingsFocus psnFocus_ne =
    replacing psnFocus (henSettingsFocus ++ [lf]) psnFocus_ne :=
  replacingRest_eq (s := bytes "initial_focus_to=\"psn\">\r") (by decide) (by decide)

-- Both texts are cut off where there is no more room, but neither of them within something that is replaced.
theorem fittingPatched_prefix (h : (fittingPatched xml).length ≤ 8188) : fittingPatched xml <+: patched xml := by
  rw [fittingPatched, fitting, fitting, linkRule_eq, focusRule_eq] at h ⊢
  rw [patched, linkRule_eq, focusRule_eq]
  exact fit_fit_prefix (by decide) (by decide) (Nat.lt_of_le_of_lt h (by decide))

-- The terminator that `strncat` adds is outside of the buffer if the text is too long for the BOM in front of it.
theorem setupSettingsRoot_patched_iff (fuel : Nat) (xml : Bytes) (hx : 0 ∉ xml) (hf : xml.length < fuel)
    (hb : maxBuf ≤ fuel) : Patched fuel xml ↔ (fittingPatched xml).length ≤ 8188 := by
  rw [Patched, setupSettingsRoot_eq hx hf hb]
  constructor
  case mp =>
    intro ⟨_, _, _, hs, _⟩
    by_contra hn
    simp [hn] at hs
  case mpr =>
    intro h
    have hl : (bomHeader ++ fittingPatched xml).length = (fittingPatched xml).length + 3 := by simp [bomHeader]
    refine ⟨_, _, fittingPatched xml, if_pos h, ?_, fittingPatched_prefix h, ?_⟩
    · rw [← hl, take_left' rfl]
    · rw [← hl, getElem?_append_right le_rfl, Nat.sub_self]
      rfl

-- Nothing is replaced in a text without the link and the attribute.
theorem fittingPatched_eq (hl : ¬sandboxLink <:+: xml) (hf : ¬psnFocus <:+: xml) (hx : xml.length < maxBuf - 1) :
    fittingPatched xml = xml := by
  rw [fittingPatched, fitting, fitting, linkRule_eq, focusRule_eq, fit_eq_self hl hx, fit_eq_self hf hx]

theorem setupSettingsRoot_patched_sample : Patched maxBuf <|
    bytes "<setting_list initial_focus_to=\"psn\">\r\n" ++ sandboxLink ++ bytes "</setting_list>\r\n" :=
  (setupSettingsRoot_patched_iff maxBuf _ (by decide +kernel) (by decide +kernel) le_rfl).mpr (by decide +kernel)

-- A text of 8189 bytes fits into both buffers and is written back by three bytes too many.
theorem setupSettingsRoot_leaves_buffer : ¬Patched maxBuf (replicate 8189 space) := by
  have hs {c : UInt8} {search : Bytes} (hc : c ∈ search) (h : c ≠ space) : ¬search <:+: replicate 8189 space :=
    fun hi => h (eq_of_mem_replicate (hi.subset hc))
  have hl : (replicate 8189 space).length = 8189 := length_replicate
  have he : fittingPatched (replicate 8189 space) = replicate 8189 space :=
    fittingPatched_eq (hs (c := tab) (by decide) (by decide)) (hs (c := lf) (by decide) (by decide)) (by rw [hl]; decide)
  intro ⟨_, _, _, h, _⟩
  rw [setupSettingsRoot_eq (fun h0 => absurd (eq_of_mem_replicate h0) (by decide)) (by rw [hl]; decide) le_rfl,
    he, hl] at h
  simp at h

end Settings
