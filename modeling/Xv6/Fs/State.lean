/-
The state of the file system as one system call sees it, and the primitives the code of kernel/fs.c is made of.

Disk blocks are what `bread` returns: the buffer cache over the log over the disk (`System.no_block_lost` says that this
is the content of the last `log_write`). Every use of the block layer is also recorded, in order, in `trace`. A `struct
inode *` is an index into the inode table, a `struct file *` an index into the file table. There is one device, and one
call runs at a time: a call that would sleep on a lock it holds itself ends in `deadlock`.
-/
import Xv6.Core.Hoare
import Xv6.Core.Crash
import Xv6.Fs.Layout

namespace Xv6.Fs

open Xv6.Core

def NINODE : ℕ := 50
def NOFILE : ℕ := 16
def NFILE : ℕ := 100
def NDEV : ℕ := 10
def MAXPATH : ℕ := 128
def PGSIZE : ℕ := 4096

/-- the panics of kernel/fs.c, kernel/file.c and kernel/sysfile.c, and a call that sleeps on its own lock -/
inductive Panic where
  | freeingFree
  | igetNoInodes
  | ilock
  | ilockNoType
  | iunlock
  | bmapRange
  | dirlookupNotDir
  | dirlookupRead
  | dirlinkRead
  | isdiremptyRead
  | unlinkNlink
  | unlinkWritei
  | filedup
  | fileclose
  | fileread
  | filewrite
  | deadlock
deriving DecidableEq, Repr

/-- a use of the block layer -/
inductive Ev where
  | beginOp
  | endOp
  | bread (b : ℕ)
  /-- the buffer's data is modified -/
  | store (b : ℕ) (d : Block)
  | logWrite (b : ℕ)
  | brelse (b : ℕ)

/-- `struct inode`; `din` is its copy of the disk inode -/
structure Inode where
  inum : ℕ
  ref : ℕ
  locked : Bool
  valid : Bool
  din : Dinode

inductive FileType where
  | none
  | inode
  | device
deriving DecidableEq, Repr

/-- `struct file` -/
structure File where
  type : FileType
  ref : ℕ
  readable : Bool
  writable : Bool
  ip : ℕ
  off : ℕ
  major : UInt16

/-- what the file system keeps in `struct proc`; a process that has exited has no current directory -/
structure Proc where
  cwd : Option ℕ
  ofile : ℕ → Option ℕ

structure St where
  blk : Store Block
  inode : Store Inode
  file : Store File
  proc : Store Proc
  trace : List Ev

abbrev FsM := StateT St (Except Panic)

/-! ## Primitives -/

def emit (e : Ev) : FsM Unit := modify fun s => { s with trace := s.trace ++ [e] }

def beginOp : FsM Unit := emit .beginOp
def endOp : FsM Unit := emit .endOp

/-- the data of the buffer of block b -/
def bread (b : ℕ) : FsM Block := do
  emit (.bread b)
  return (← get).blk b

/-- modify the data of the buffer of block b -/
def store (b : ℕ) (d : Block) : FsM Unit :=
  modify fun s => { s with blk := s.blk.set b d, trace := s.trace ++ [.store b d] }

def logWrite (b : ℕ) : FsM Unit := emit (.logWrite b)
def brelse (b : ℕ) : FsM Unit := emit (.brelse b)

def getInode (ip : ℕ) : FsM Inode := return (← get).inode ip
def setInode (ip : ℕ) (x : Inode) : FsM Unit := modify fun s => { s with inode := s.inode.set ip x }
def getFile (f : ℕ) : FsM File := return (← get).file f
def setFile (f : ℕ) (x : File) : FsM Unit := modify fun s => { s with file := s.file.set f x }
def getProc (p : ℕ) : FsM Proc := return (← get).proc p
def setProc (p : ℕ) (x : Proc) : FsM Unit := modify fun s => { s with proc := s.proc.set p x }

/-- t has the given blocks and inode table, and the files and processes of s -/
structure To (s t : St) (blk : Store Block) (inode : Store Inode) : Prop where
  blk : t.blk = blk
  inode : t.inode = inode
  file : t.file = s.file
  proc : t.proc = s.proc

theorem To.refl (s : St) : To s s s.blk s.inode := ⟨rfl, rfl, rfl, rfl⟩

variable {s t : St} {blk blk' : Store Block}

theorem To.trans {u : St} {inode inode' : Store Inode} (h : To s t blk inode)
    (h' : To t u blk' inode') : To s u blk' inode' :=
  ⟨h'.blk, h'.inode, h'.file.trans h.file, h'.proc.trans h.proc⟩

/-- t has the given blocks, and entry ip of the inode table has the given copy of its disk inode -/
def Upd (s t : St) (ip : ℕ) (blk : Store Block) (d : Dinode) : Prop :=
  To s t blk (s.inode.set ip { s.inode ip with din := d })

theorem Upd.of_to (h : To s t blk s.inode) (ip : ℕ) :
    Upd s t ip blk (s.inode ip).din := by
  unfold Upd
  rw [Store.set_same]; exact h

theorem Upd.entry {ip : ℕ} {d : Dinode} (h : Upd s t ip blk d) :
    t.inode ip = { s.inode ip with din := d } := by
  rw [h.inode, Store.set_self]

theorem Upd.trans {u : St} {ip : ℕ} {d d' : Dinode} (h : Upd s t ip blk d)
    (h' : Upd t u ip blk' d') : Upd s u ip blk' d' := by
  refine ⟨h'.blk, ?_, h'.file.trans h.file, h'.proc.trans h.proc⟩
  rw [h'.inode, h.entry, h.inode, Store.set_set]

/-! ## User memory -/

/-- the readable pages of a process, by page number: those that `walkaddr` finds or `vmfault` can supply -/
abbrev UserMem := ℕ → Option (Bytes PGSIZE)

/-- `copyin`, page by page: the bytes copied before it stopped, and whether it copied all of them -/
def copyin (mem : UserMem) : ℕ → ℕ → ℕ → List UInt8 × Bool
  | 0, _, _ => ([], true)
  | fuel + 1, srcva, len =>
    if len = 0 then ([], true)
    else match mem (srcva / PGSIZE) with
      | none => ([], false)
      | some page =>
        let n := min (PGSIZE - srcva % PGSIZE) len
        let r := copyin mem fuel ((srcva / PGSIZE + 1) * PGSIZE) (len - n)
        (page.read (srcva % PGSIZE) n ++ r.1, r.2)

/-- `copyout`, page by page: whether every page is there and writable -/
def copyout (writable : ℕ → Bool) : ℕ → ℕ → ℕ → Bool
  | 0, _, _ => true
  | fuel + 1, dstva, len =>
    if len = 0 then true
    else if writable (dstva / PGSIZE) then
      copyout writable fuel ((dstva / PGSIZE + 1) * PGSIZE) (len - min (PGSIZE - dstva % PGSIZE) len)
    else false

/-- where `writei` copies from -/
inductive Src where
  | kernel (bytes : List UInt8)
  | user (mem : UserMem) (va : ℕ)

/-- where `readi` copies to -/
inductive Dst where
  | kernel
  | user (writable : ℕ → Bool) (va : ℕ)

/-- `either_copyin` of m bytes from `src + off`; every round of `copyin` copies at least one byte -/
def eitherCopyin (src : Src) (off m : ℕ) : List UInt8 × Bool :=
  match src with
  | .kernel bytes => ((bytes.drop off).take m, true)
  | .user mem va => copyin mem m (va + off) m

/-- `either_copyout` of m bytes to `dst + off` -/
def eitherCopyout (dst : Dst) (off m : ℕ) : Bool :=
  match dst with
  | .kernel => true
  | .user writable va => copyout writable m (va + off) m

end Xv6.Fs
