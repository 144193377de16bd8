/-!
# Parameters of the kernel and of the disk format (`kernel/param.h`, `kernel/fs.h`)
-/

namespace Xv6

/-- Block size (`fs.h:7`). -/
def BSIZE : Nat := 1024

/-- Max number of blocks any file-system operation writes (`param.h:11`). -/
def MAXOPBLOCKS : Nat := 10

/-- Max data blocks in the on-disk log (`param.h:12`). -/
def LOGSIZE : Nat := MAXOPBLOCKS * 3

/-- A disk block, or the `data` of a `struct buf`. -/
abbrev Block := Fin BSIZE → UInt8

end Xv6
