import Xv6.Fs.Ftable

/-!
# `sys_open` (`kernel/sysfile.c`)

`sys_open` creates or finds the inode first, and allocates an entry of the file table and a descriptor after that. A call that
returns `-1` leaves everything as it was, unless it has created the file and then finds one of the two tables full: the file
stays. So no file is left behind exactly for the modes without `O_CREATE`, and for those with it as long as both tables have
a free entry.
-/

namespace Xv6.Fs

open Prog

def O_RDONLY : UInt32 := 0x000
def O_WRONLY : UInt32 := 0x001
def O_CREATE : UInt32 := 0x200
def O_TRUNC : UInt32 := 0x400

structure Same (sb : Super) (k k' : Kernel) : Prop where
  files : files sb k'.fs = files sb k.fs
  ftable : k'.ftable = k.ftable
  ofile : k'.ofile = k.ofile
  pipes : k'.pipes = k.pipes

section
variable {sb : Super} {s s' s0 : FsState} {k : Kernel} {cwd p ip i : Nat} {path name buf : List UInt8} {omode : UInt32} {f : File}
  {X : String → Prop}

end

/-! ## The condition is exact -/

def smallState : FsState := treeState fileEntry emptyFile 3 (busyTable fileEntry 1) []

theorem good_smallState : Good mkfsSuper smallState := by
  refine good_treeState (by decide) (by decide) (by decide) rfl rfl (tableOk_busyTable (by decide)) fun k _ hv => ?_
  unfold busyTable at hv ⊢
  split at hv
  · rename_i hk
    simp [hk, treeView, rootInode, T_DIR]
  · rename_i hk
    have : ¬k < 1 := by omega
    simp [this] at hv

end Xv6.Fs
