/-
The sizes the kernel is built with (kernel/param.h, kernel/fs.h, kernel/fcntl.h).
-/
import Mathlib.Tactic

namespace Xv6

/-- maximum number of processes -/
def NPROC : ℕ := 64

/-- device number of the file system's disk -/
def ROOTDEV : ℕ := 1

/-- max # of blocks any FS op writes -/
def MAXOPBLOCKS : ℕ := 10

/-- max data blocks in on-disk log -/
def LOGBLOCKS : ℕ := MAXOPBLOCKS * 3

/-- size of disk block cache -/
def NBUF : ℕ := MAXOPBLOCKS * 3

/-- block size -/
def BSIZE : ℕ := 1024

/-- the values of a `uint` -/
def UINT : ℕ := 0x100000000

/-- the bits of the open mode: O_WRONLY, O_RDWR, O_CREATE, O_TRUNC, O_APPEND, O_NOFOLLOW -/
def O_WRONLY : ℕ := 0
def O_RDWR : ℕ := 1
def O_CREATE : ℕ := 9
def O_TRUNC : ℕ := 10
def O_APPEND : ℕ := 11
def O_NOFOLLOW : ℕ := 12

end Xv6
