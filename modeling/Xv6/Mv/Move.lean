import Mathlib.Data.List.DropRight
import Xv6.Mv.World

/-!
# `mv` and `cp` (`user/utils.c`)

`move` moves or, without `shouldDelete`, links what `src` names into the directory `dst`: a file by one `link` and one
`unlink`, a directory by a new directory and a `move` of each of its entries. A result `true` stands for 0, `false` for -1.
Messages are left out, and `malloc` has memory.
-/

namespace Xv6.Mv

open Prog (perform)
open Fs (slash dot dotdot DIRSIZ T_DIR)

/-- `utils.c:7`. -/
def MAX_PATH_LEN : Nat := 700

/-! ## Paths -/

/-- Without repeated leading `./`. -/
def stripDots : Path → Path
  | 46 :: 47 :: path => stripDots path
  | path => path

/-- Without trailing slashes, but for one that is the whole path. -/
def stripSlashes : Path → Path
  | [] => []
  | c :: path => c :: path.rdropWhile (· = slash)

/-- `utils.c:11`. -/
def normalizePath (path : Path) : Path :=
  match (stripDots path).take (MAX_PATH_LEN - 1) with
  | [] => dot
  | out => stripSlashes out

/-- The test of `move` that `dst` is `src` or starts with `src/` (`utils.c:47`). -/
def insideSrc (src dst : Path) : Bool :=
  let src := normalizePath src
  let dst := normalizePath dst
  decide (dst = src) || (decide (src.length < dst.length) && decide (dst.take src.length = src) &&
    decide (dst[src.length]? = some slash))

def joined (below : UInt8) (dir filename : Path) : Path :=
  dir ++ (if dir.getLastD below = slash then [] else [slash]) ++ filename

def joinpath (dir filename : Path) : P Path := do
  if MAX_PATH_LEN < dir.length + 1 + filename.length + 1 then perform .stray
  else return joined (← perform .below) dir filename

/-- `ulib.c:202`. -/
def getFilename (path : Path) : Path := path.rtakeWhile (· ≠ slash)

def entryName (name : Name) : P Path := do
  if name.length < DIRSIZ then return name
  else return name ++ (← perform .stray)

/-! ## Moves -/

/-- `ulib.c:170`, with `stat` (`ulib.c:92`). -/
def isdir (path : Path) : P Bool := do
  match ← perform (.open path) with
  | none => return false
  | some fd =>
    let type ← perform (.fstat fd)
    perform (.close fd)
    return decide (type = some T_DIR)

/-- `utils.c:130`. -/
def moveFile (src dst : Path) (shouldDelete : Bool) : P Bool := do
  let newDst ← joinpath dst (getFilename src)
  if ← perform (.link src newDst) then
    if shouldDelete then
      if ← perform (.unlink src) then
        return true
      else
        let _ ← perform (.unlink newDst)
        return false
    else
      return true
  else
    return false

def moveEntries (move : Path → Path → P Bool) (src newDst : Path) (fd : Nat) : Nat → P Bool
  | 0 => .panic "out of fuel"
  | fuel + 1 => do
    match ← perform (.read fd) with
    | none => return true
    | some none => moveEntries move src newDst fd fuel
    | some (some (name, _)) =>
      if name = dot ∨ name = dotdot then moveEntries move src newDst fd fuel
      else
        let itemSrc ← joinpath src (← entryName name)
        perform .push
        let moved ← move itemSrc newDst
        perform .pop
        if moved then moveEntries move src newDst fd fuel else return false

/-- `utils.c:61`. -/
def moveDir (move : Path → Path → P Bool) (fuel : Nat) (src dst : Path) (shouldDelete : Bool) : P Bool := do
  let newDst ← joinpath dst (getFilename src)
  if ← perform (.mkdir newDst) then
    match ← perform (.open src) with
    | none =>
      let _ ← perform (.unlink newDst)
      return false
    | some fd =>
      let moved ← moveEntries move src newDst fd fuel
      perform (.close fd)
      if moved then
        if shouldDelete then perform (.unlink src) else return true
      else
        let _ ← perform (.unlink newDst)
        return false
  else
    return false

/-- `utils.c:34`. -/
def move (shouldDelete : Bool) : Nat → Path → Path → P Bool
  | 0, _, _ => .panic "out of fuel"
  | fuel + 1, src, dst => do
    if ← isdir dst then
      if insideSrc src dst then
        return false
      else if ← isdir src then
        moveDir (move shouldDelete fuel) fuel src dst shouldDelete
      else
        moveFile src dst shouldDelete
    else
      return false

end Xv6.Mv
