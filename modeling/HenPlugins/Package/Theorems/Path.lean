import HenPlugins.Package.Basic

open List CString Encoding

namespace Package

variable {mono : Mono} {p q r s : List Char}

-- What is relied on: the functions convert between the two encodings, and UTF-8 is what the locale has for `%ls`.
structure Mono.Converts (mono : Mono) : Prop where
  toUtf8  : ∀ s, mono.monoStringToUtf8 (utf16 s) = utf8 s
  new     : ∀ s, '\x00' ∉ s → mono.monoNewString (utf8 s) = some (utf16 s)
  encodes : ∀ text s, mono.monoNewString text = some (utf16 s) → text = utf8 s
  wide    : ∀ s, '\x00' ∉ s → mono.wideText (utf16 s) = some (utf8 s)

-- The path without the prefix.
def stripped (p : List Char) : List Char :=
  if mntSusPath <+: p then p.drop mntSusPath.length else p

-- The path that is shown and the one that is installed from are that path.
def Agrees (mono : Mono) (p : List Char) : Prop :=
  ∃ q, q = stripped p ∧ downloadRegisterTaskByStorageEx mono (utf16 p) = some (utf16 q) ∧
    pkgNewElementEx mono (utf16 p) = some (utf16 ("Path: ".toList ++ q))

-- The prefix again and again, so that as many bytes as are shown follow the first one.
def mntRepeated : List Char :=
  (replicate 56 mntSusPath).flatten.take 387

section Text

-- A list that continues as it begins repeats what it begins with.
theorem take_eq_flatten_replicate {α : Type} {l b : List α} {n : Nat} (h : l = (b ++ l).take n) (k : Nat) :
    l.take (k * b.length) = (replicate k b).flatten.take n := by
  induction k
  case zero      => simp
  case succ k hi =>
    calc
      l.take ((k + 1) * b.length) = ((b ++ l).take n).take ((k + 1) * b.length) := by rw [← h]
      _ = ((b ++ l).take (b.length + k * b.length)).take n := by
        rw [take_take, take_take, min_comm, Nat.succ_mul, Nat.add_comm (k * b.length)]
      _ = (b ++ l.take (k * b.length)).take n := by rw [take_length_add_append]
      _ = (b ++ (replicate k b).flatten.take n).take n := by rw [hi]
      _ = (b ++ (replicate k b).flatten).take n := by
        rw [take_append, take_append, take_take]
        congr 2
        omega
      _ = (replicate (k + 1) b).flatten.take n := by rw [replicate_succ, flatten_cons]

theorem takeWhile_utf16 (h : '\x00' ∉ s) : (utf16 s).takeWhile (· ≠ 0) = utf16 s := by
  refine takeWhile_eq_self_iff.mpr fun u hu => ?_
  simp only [ne_eq, decide_eq_true_eq]
  rintro rfl
  exact h (zero_mem_utf16.mp hu)

theorem cstr_utf8 (h : '\x00' ∉ s) : cstr (utf8 s) = utf8 s :=
  cstr_eq_self (mt zero_mem_utf8.mp h)

theorem ascii_mntSusPath : ∀ a ∈ mntSusPath, a.toNat < 128 := by
  have h : mntSusPath.all fun a => a.toNat < 128 := by decide +kernel
  exact fun a ha => of_decide_eq_true (all_eq_true.mp h a ha)

theorem ascii_hddPath : ∀ a ∈ mntSusPath ++ "/data".toList, a.toNat < 128 := by
  have h : (mntSusPath ++ "/data".toList).all fun a => a.toNat < 128 := by decide +kernel
  exact fun a ha => of_decide_eq_true (all_eq_true.mp h a ha)

end Text

variable (hm : mono.Converts)

-- As much of the path is shown as there is room for.
include hm in
theorem shown_iff (hs : '\x00' ∉ s) :
    mono.monoNewString (cstr ((bytes "Path: " ++ utf8 s).take (pathDescSize - 1 - 1))) =
      some (utf16 ("Path: ".toList ++ q)) ↔ (utf8 s).take 380 = utf8 q := by
  have ht : (bytes "Path: " ++ utf8 s).take (pathDescSize - 1 - 1) = utf8 "Path: ".toList ++ (utf8 s).take 380 := by
    have hb : bytes "Path: " = utf8 "Path: ".toList := by decide +kernel
    have hl : (utf8 "Path: ".toList).length = 6 := by decide +kernel
    rw [hb, ← take_length_add_append, hl]
    rfl
  have hz : 0 ∉ utf8 "Path: ".toList ++ (utf8 s).take 380 := by
    rw [mem_append, not_or]
    exact ⟨by decide +kernel, fun h0 => hs (zero_mem_utf8.mp (mem_of_mem_take h0))⟩
  rw [ht, cstr_eq_self hz]
  constructor
  case mp =>
    intro h
    have he := hm.encodes _ _ h
    rwa [utf8_append, append_cancel_left_eq] at he
  case mpr =>
    intro h
    rw [h, ← utf8_append]
    refine hm.new _ fun h0 => hz ?_
    rw [h, ← utf8_append]
    exact zero_mem_utf8.mpr h0

section Cases

variable (hz : '\x00' ∉ p)

include hm hz in
theorem download_eq : downloadRegisterTaskByStorageEx mono (utf16 p) =
    if mntSusPath <:+: p then mono.monoNewString ((utf8 p).drop mntSusPath.length) else some (utf16 p) := by
  rw [downloadRegisterTaskByStorageEx, hm.toUtf8, cstr_utf8 hz]
  exact if_congr (utf8_infix_iff ascii_mntSusPath) rfl rfl

include hz in
theorem pkgNewElementEx_eq : pkgNewElementEx mono (utf16 p) =
    (mono.wideText (if mntSusPath ++ "/data".toList <:+: p then (utf16 p).drop mntSusPath.length else utf16 p)).bind
      fun text => mono.monoNewString (cstr ((bytes "Path: " ++ text).take (pathDescSize - 1 - 1))) := by
  rw [pkgNewElementEx, takeWhile_utf16 hz]
  simp only [utf16_infix_iff ascii_hddPath]
  rfl

include hm hz in
theorem pkgNewElementEx_of_found (h : mntSusPath ++ "/data".toList <:+: p) (hp : p = mntSusPath ++ r) :
    pkgNewElementEx mono (utf16 p) =
      mono.monoNewString (cstr ((bytes "Path: " ++ utf8 r).take (pathDescSize - 1 - 1))) := by
  have hr : '\x00' ∉ r := fun h0 => hz (hp ▸ mem_append_right _ h0)
  have hd : (utf16 p).drop mntSusPath.length = utf16 r := by
    rw [hp, utf16_append]
    exact drop_left' rfl
  rw [pkgNewElementEx_eq hz, if_pos h, hd, hm.wide r hr, Option.bind_some]

include hm hz in
theorem pkgNewElementEx_of_not_found (h : ¬mntSusPath ++ "/data".toList <:+: p) : pkgNewElementEx mono (utf16 p) =
    mono.monoNewString (cstr ((bytes "Path: " ++ utf8 p).take (pathDescSize - 1 - 1))) := by
  rw [pkgNewElementEx_eq hz, if_neg h, hm.wide p hz, Option.bind_some]

-- The URL is the rest of a path that starts with the prefix.
include hm hz in
theorem agrees_iff_of_append (hp : p = mntSusPath ++ r) :
    Agrees mono p ↔ pkgNewElementEx mono (utf16 p) = some (utf16 ("Path: ".toList ++ r)) := by
  have hr : '\x00' ∉ r := fun h0 => hz (hp ▸ mem_append_right _ h0)
  have hq : stripped p = r := by
    rw [stripped, hp, if_pos (prefix_append _ _), drop_left]
  have hd : (utf8 p).drop mntSusPath.length = utf8 r := by
    rw [hp, utf8_append]
    exact drop_left' rfl
  have hu : downloadRegisterTaskByStorageEx mono (utf16 p) = some (utf16 r) := by
    rw [download_eq hm hz, if_pos (hp ▸ (prefix_append _ _).isInfix), hd, hm.new r hr]
  rw [Agrees, hq, exists_eq_left, and_iff_right hu]

-- Nothing may be found in a path that does not start with the prefix.
include hm hz in
theorem agrees_iff_of_not_start (hp : ¬mntSusPath <+: p) :
    Agrees mono p ↔ ¬mntSusPath <:+: p ∧ (utf8 p).length ≤ 380 := by
  rw [Agrees, stripped, if_neg hp, exists_eq_left, download_eq hm hz]
  split
  case isTrue hi =>
    refine iff_of_false (fun h => ?_) fun h => h.left hi
    have he := congrArg length (hm.encodes _ _ h.left)
    have hl := ((utf8_infix_iff ascii_mntSusPath).mpr hi).length_le
    have hn : (utf8 mntSusPath).length = mntSusPath.length := rfl
    have hn' : 0 < mntSusPath.length := by decide
    rw [length_drop] at he
    omega
  case isFalse hi =>
    have hh : ¬mntSusPath ++ "/data".toList <:+: p := fun h => hi ((prefix_append _ _).isInfix.trans h)
    rw [pkgNewElementEx_of_not_found hm hz hh, shown_iff hm hz, take_eq_self_iff]
    simp [hi]

end Cases

theorem take_eq_iff_repeated (hp : p = mntSusPath ++ r) : (utf8 p).take 380 = utf8 r ↔ p = mntRepeated := by
  have hn : (utf8 mntSusPath).length = 7 := by decide +kernel
  constructor
  case mp =>
    intro h
    have hr : utf8 r = (utf8 mntSusPath ++ utf8 r).take 380 := by rw [← utf8_append, ← hp, h]
    have hl := congrArg length hr
    rw [length_take, length_append, hn] at hl
    have ht := take_eq_flatten_replicate hr 55
    rw [hn, take_of_length_le (by omega)] at ht
    have he : utf8 mntRepeated = utf8 mntSusPath ++ (replicate 55 (utf8 mntSusPath)).flatten.take 380 := by decide +kernel
    exact utf8_injective (by rw [he, ← ht, hp, utf8_append])
  case mpr =>
    rintro rfl
    have he : (utf8 mntRepeated).take 380 = utf8 (mntRepeated.drop 7) := by decide +kernel
    rw [he, hp]
    exact congrArg utf8 (drop_left' (by decide))

include hm in
theorem zero_not_mem_of_agrees (h : Agrees mono p) : '\x00' ∉ p := by
  have ⟨q, hq, _, hs⟩ := h
  have ⟨text, _, ht⟩ := Option.bind_eq_some_iff.mp hs
  have hc := hm.encodes _ _ ht
  have hz : '\x00' ∉ "Path: ".toList ++ q := fun h0 => zero_not_mem_cstr (hc ▸ zero_mem_utf8.mpr h0)
  intro h0
  refine hz (mem_append_right _ ?_)
  rw [hq, stripped]
  split
  case isTrue hp =>
    obtain ⟨r, rfl⟩ := hp
    rw [drop_left]
    exact (mem_append.mp h0).resolve_left (by decide)
  case isFalse => exact h0

-- Both paths are right if and only if the prefix is found at the start only, it is found by both of the tests or by
-- none of them, and there is room for the path. A path that repeats the prefix looks right when it is cut.
include hm in
theorem agrees_iff : Agrees mono p ↔
    '\x00' ∉ p ∧ (mntSusPath <:+: p → mntSusPath <+: p) ∧
      (mntSusPath <+: p → mntSusPath ++ "/data".toList <:+: p ∨ p = mntRepeated) ∧
      (utf8 (stripped p)).length ≤ 380 := by
  by_cases hz : '\x00' ∈ p
  case pos => exact iff_of_false (fun h => zero_not_mem_of_agrees hm h hz) fun h => h.left hz
  case neg =>
    by_cases hp : mntSusPath <+: p
    case neg =>
      rw [agrees_iff_of_not_start hm hz hp, stripped, if_neg hp]
      simp [hz, hp]
    case pos =>
      have ⟨r, hr⟩ := hp
      have hq : stripped p = r := by
        rw [stripped, if_pos hp, ← hr, drop_left]
      rw [agrees_iff_of_append hm hz hr.symm, hq]
      by_cases hh : mntSusPath ++ "/data".toList <:+: p
      case pos =>
        have hr' : '\x00' ∉ r := fun h0 => hz (hr ▸ mem_append_right _ h0)
        rw [pkgNewElementEx_of_found hm hz hh hr.symm, shown_iff hm hr', take_eq_self_iff]
        exact ⟨fun h => ⟨hz, fun _ => hp, fun _ => .inl hh, h⟩, fun h => h.right.right.right⟩
      case neg =>
        rw [pkgNewElementEx_of_not_found hm hz hh, shown_iff hm hz]
        constructor
        case mp =>
          intro h
          refine ⟨hz, fun _ => hp, fun _ => .inr ((take_eq_iff_repeated hr.symm).mp h), ?_⟩
          rw [← h]
          exact length_take_le _ _
        case mpr => exact fun ⟨_, _, h, _⟩ => (take_eq_iff_repeated hr.symm).mpr ((h hp).resolve_left hh)

section Sample

-- A runtime that decodes what it is given, in a locale with UTF-8.
def runtime : Mono where
  monoStringToUtf8 s := ((decodeUtf16 s).map utf8).getD []
  monoNewString text := text.toByteArray.utf8Decode?.map fun s => utf16 s.toList
  wideText s         := (decodeUtf16 s).map utf8

theorem runtime_converts : runtime.Converts where
  wide s _ := by simp [runtime, decodeUtf16_utf16]
  toUtf8 s := by simp [runtime, decodeUtf16_utf16]
  new s _ := by
    have he : (utf8 s).toByteArray = s.utf8Encode := rfl
    simp [runtime, he]
  encodes text s h := by
    have ⟨t, ht, hs⟩ := Option.map_eq_some_iff.mp h
    have hd := congrArg decodeUtf16 hs
    rw [decodeUtf16_utf16, decodeUtf16_utf16, Option.some.injEq] at hd
    have hb : text.toByteArray = (utf8 s).toByteArray := by
      calc
        text.toByteArray = (text.toByteArray.utf8Decode?.get (Option.isSome_of_eq_some ht)).toList.utf8Encode := by simp
        _ = s.utf8Encode := by rw [Option.get_of_eq_some _ ht, hd]
    simpa using congrArg (fun b => b.data.toList) hb

theorem agrees_sample : Agrees runtime "/mnt/../data/pkg/a.pkg".toList :=
  (agrees_iff runtime_converts).mpr ⟨by decide, by decide, by decide, by decide⟩

-- The name of a directory starts with two dots.
def backupPath : List Char :=
  "/mnt/usb0/mnt/..backup/a.pkg".toList

theorem shown_ne_installed : ¬∃ q, downloadRegisterTaskByStorageEx runtime (utf16 backupPath) = some (utf16 q) ∧
    pkgNewElementEx runtime (utf16 backupPath) = some (utf16 ("Path: ".toList ++ q)) := by
  have hm := runtime_converts
  have hz : '\x00' ∉ backupPath := by decide +kernel
  have hp : ¬mntSusPath <+: backupPath := by decide +kernel
  have hh : ¬mntSusPath ++ "/data".toList <:+: backupPath := by decide +kernel
  rintro ⟨q, hu, hs⟩
  have ht : (utf8 backupPath).take 380 = utf8 q := by rwa [pkgNewElementEx_of_not_found hm hz hh, shown_iff hm hz] at hs
  obtain rfl : backupPath = q := utf8_injective (ht ▸ (by decide +kernel))
  have ha : Agrees runtime backupPath := ⟨backupPath, (if_neg hp).symm, hu, hs⟩
  exact ((agrees_iff_of_not_start hm hz hp).mp ha).left (by decide +kernel)

end Sample

end Package
