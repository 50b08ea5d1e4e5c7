import HenPlugins.Library.CharArray
import HenPlugins.Path

open List CString CharArray Path

namespace Settings

inductive ReplaceMode
  | replaceMatch
  | addBefore
  | addAfter
  | replaceLine
deriving DecidableEq

-- The array `output` and `out_len`.
structure Output where
  array  : Bytes
  outLen : Nat

-- `memcpy(output + out_len, s, n), out_len += n`
def Output.append (output : Output) (s : Bytes) : Option Output := do
  return ⟨← memcpy output.array output.outLen s, output.outLen + s.length⟩

-- The loop of `str_replace`. All strings are given without their terminators, and `output_size` is the size of
-- the array. The start of the line is left out, since nothing is done with it.
def strReplaceLoop (search replacement : Bytes) (mode : ReplaceMode) : (fuel : Nat) → (pos : Bytes) → Output → Option Output
  | 0, _, _                    => none
  | _ + 1, [], output          => some output
  | fuel + 1, c :: pos, output =>
    let next := strReplaceLoop search replacement mode fuel
    let last := output.array.length - 1
    if output.outLen < last then
      if startsWith (c :: pos) search then
        match mode with
        | .replaceMatch =>
          if output.outLen + replacement.length ≥ last then some output
          else do
            let output ← output.append replacement
            next ((c :: pos).drop search.length) output
        | .addBefore =>
          if output.outLen + replacement.length + search.length ≥ last then some output
          else do
            let output ← output.append replacement
            let output ← output.append ((c :: pos).take search.length)
            next ((c :: pos).drop search.length) output
        | .addAfter =>
          if output.outLen + search.length + replacement.length ≥ last then some output
          else do
            let output ← output.append ((c :: pos).take search.length)
            let output ← output.append replacement
            next ((c :: pos).drop search.length) output
        | .replaceLine =>
          if output.outLen + replacement.length + 1 ≥ last then some output
          else do
            let output ← output.append replacement
            match (c :: pos).dropWhile (· ≠ lf) with
            | []       => next [] output
            | _ :: pos => do
              let output ← output.append [lf]
              next pos output
      else do
        let output ← output.append [c]
        next pos output
    else some output

-- The contents of the array after the call. There is no result if something is written outside of it.
def strReplace (fuel : Nat) (input search replacement array : Bytes) (mode : ReplaceMode) : Option Bytes := do
  let output ← strReplaceLoop search replacement mode fuel input ⟨array, 0⟩
  memcpy output.array output.outLen [0]

abbrev maxBuf := 8 * 1024

def sandboxLink : Bytes :=
  bytes "\t\t<link id=\"sandbox\" title=\"Sandbox\" file=\"Sandbox/sandbox.xml\" />\r\n"

-- The title starts with a star.
def henSettingsLink : Bytes :=
  bytes "\t\t<link id=\"hen_settings\" title=\"" ++ [0xe2, 0x98, 0x85] ++
    bytes " HEN Settings\" file=\"hen_settings.xml\" icon=\"file://" ++ shelluiHenSettingsIconPath ++
    bytes "\" />\r\n"

def psnFocus : Bytes :=
  bytes "initial_focus_to=\"psn\">\r\n"

def henSettingsFocus : Bytes :=
  bytes "initial_focus_to=\"hen_settings\">\r\n"

def bomHeader : Bytes :=
  [0xef, 0xbb, 0xbf]

-- `buf_fixed` and `buflen` after the call.
def setupSettingsRoot (fuel : Nat) (xml : Bytes) : Option (Bytes × Nat) := do
  let buf  ← strReplace fuel xml sandboxLink henSettingsLink (replicate maxBuf 0) .addBefore
  let text ← string buf
  let buf2 ← strcat (replicate maxBuf 0) text
  let buf2 ← strReplace fuel text psnFocus henSettingsFocus buf2 .replaceLine
  let buf  ← memcpy (replicate maxBuf 0) 0 bomHeader
  let buf  ← strcat buf (← string buf2)
  let bufFixed ← memcpy (replicate maxBuf 0) 0 (← string buf)
  return (bufFixed, ← strlen bufFixed)

end Settings
