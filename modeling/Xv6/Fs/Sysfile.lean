/-
File-system system calls (kernel/sysfile.c, kernel/file.c, and what `kfork` and `kexit` of kernel/proc.c do to files).

The first argument is the calling process. A path argument is what `argstr` fetched, none if that failed. A result none
or false stands for -1.
-/
import Xv6.Fs.Model

namespace Xv6.Fs

open Xv6.Core

/-! ## Open files -/

def filealloc : FsM (Option ℕ) := do
  let s ← get
  match (List.range NFILE).find? fun f => (s.file f).ref = 0 with
  | none => return none
  | some f =>
    setFile f { s.file f with ref := 1 }
    return some f

def filedup (f : ℕ) : FsM Unit := do
  let x ← getFile f
  if x.ref < 1 then throw .filedup
  else setFile f { x with ref := x.ref + 1 }

def fileclose (sb : Superblock) (f : ℕ) : FsM Unit := do
  let x ← getFile f
  if x.ref < 1 then throw .fileclose
  else if x.ref - 1 > 0 then setFile f { x with ref := x.ref - 1 }
  else do
    setFile f { x with ref := 0, type := .none }
    if x.type = .inode ∨ x.type = .device then do
      beginOp
      iput sb x.ip
      endOp

/-- the chunk size of `filewrite` -/
def MAXWRITE : ℕ := (MAXOPBLOCKS - 1 - 1 - 2) / 2 * BSIZE

/-- the loop of `filewrite`: i bytes written so far of n -/
def filewriteLoop (sb : Superblock) (f : ℕ) (mem : UserMem) (addr n : ℕ) : ℕ → ℕ → FsM ℕ
  | 0, i => return i
  | fuel + 1, i =>
    if i < n then do
      let n1 := min (n - i) MAXWRITE
      let x ← getFile f
      beginOp
      ilock sb x.ip
      let r ← writei sb x.ip (.user mem (addr + i)) x.off n1
      setFile f { x with off := x.off + r.getD 0 }
      iunlock x.ip
      endOp
      if r = some n1 then filewriteLoop sb f mem addr n fuel (i + n1) else return i
    else return i

/-- `sizeof(struct stat)` -/
def STATSIZE : ℕ := 24

/-- write n bytes at user address addr to file f; a device's own write routine is not part of the file system -/
def filewrite (sb : Superblock) (f : ℕ) (mem : UserMem) (addr n : ℕ) : FsM (Option ℕ) := do
  let x ← getFile f
  if x.writable = false then return none
  else match x.type with
    | .device => return none
    | .inode => do
      let i ← filewriteLoop sb f mem addr n n 0
      return if i = n then some n else none
    | .none => throw .filewrite

/-- read n bytes from file f -/
def fileread (sb : Superblock) (f : ℕ) (writable : ℕ → Bool) (addr n : ℕ) : FsM (Option (List UInt8)) := do
  let x ← getFile f
  if x.readable = false then return none
  else match x.type with
    | .device => return none
    | .inode => do
      ilock sb x.ip
      let r ← readi sb x.ip (.user writable addr) x.off n
      setFile f { x with off := x.off + (r.getD []).length }
      iunlock x.ip
      return r
    | .none => throw .fileread

/-- the inode number, type, link count and size that `filestat` copies out to address addr -/
def filestat (sb : Superblock) (f : ℕ) (writable : ℕ → Bool) (addr : ℕ) : FsM (Option (ℕ × UInt16 × UInt16 × ℕ)) := do
  let x ← getFile f
  if x.type = .inode ∨ x.type = .device then do
    ilock sb x.ip
    let y ← getInode x.ip
    iunlock x.ip
    return if copyout writable STATSIZE addr STATSIZE then
      some (y.inum, y.din.type, y.din.nlink, y.din.size.toNat) else none
  else return none

/-- allocate a file descriptor for the given file -/
def fdalloc (p f : ℕ) : FsM (Option ℕ) := do
  let x ← getProc p
  match (List.range NOFILE).find? fun fd => x.ofile fd = none with
  | none => return none
  | some fd =>
    setProc p { x with ofile := Function.update x.ofile fd (some f) }
    return some fd

/-- `argfd` -/
def argfd (p fd : ℕ) : FsM (Option ℕ) := do
  let x ← getProc p
  return if fd < NOFILE then x.ofile fd else none

def sysDup (p fd : ℕ) : FsM (Option ℕ) := do
  match ← argfd p fd with
  | none => return none
  | some f =>
    match ← fdalloc p f with
    | none => return none
    | some fd' =>
      filedup f
      return some fd'

def sysClose (sb : Superblock) (p fd : ℕ) : FsM Bool := do
  match ← argfd p fd with
  | none => return false
  | some f =>
    let x ← getProc p
    setProc p { x with ofile := Function.update x.ofile fd none }
    fileclose sb f
    return true

def sysWrite (sb : Superblock) (p fd : ℕ) (mem : UserMem) (addr n : ℕ) : FsM (Option ℕ) := do
  match ← argfd p fd with
  | none => return none
  | some f => filewrite sb f mem addr n

def sysRead (sb : Superblock) (p fd : ℕ) (writable : ℕ → Bool) (addr n : ℕ) : FsM (Option (List UInt8)) := do
  match ← argfd p fd with
  | none => return none
  | some f => fileread sb f writable addr n

def sysFstat (sb : Superblock) (p fd : ℕ) (writable : ℕ → Bool) (addr : ℕ) :
    FsM (Option (ℕ × UInt16 × UInt16 × ℕ)) := do
  match ← argfd p fd with
  | none => return none
  | some f => filestat sb f writable addr

/-! ## Links and directories -/

/-- set the link count of the in-memory inode and write the inode back -/
def setNlink (sb : Superblock) (ip : ℕ) (f : UInt16 → UInt16) : FsM Unit := do
  let x ← getInode ip
  setInode ip { x with din := { x.din with nlink := f x.din.nlink } }
  iupdate sb ip

/-- the end of `sys_link` at label bad -/
def linkBad (sb : Superblock) (ip : ℕ) : FsM Bool := do
  ilock sb ip
  setNlink sb ip (· - 1)
  iunlockput sb ip
  endOp
  return false

/-- create the path new as a link to the same inode as old -/
def sysLink (sb : Superblock) (p : ℕ) (old new : Option (List UInt8)) : FsM Bool := do
  match old, new with
  | some old, some new => do
    beginOp
    match ← namei sb p old with
    | none =>
      endOp
      return false
    | some ip =>
      ilock sb ip
      let x ← getInode ip
      if x.din.type = T_DIR then do
        iunlockput sb ip
        endOp
        return false
      else do
        setNlink sb ip (· + 1)
        iunlock ip
        match ← nameiparent sb p new with
        | none => linkBad sb ip
        | some (dp, name) =>
          ilock sb dp
          if ← dirlink sb dp name x.inum then do
            iunlockput sb dp
            iput sb ip
            endOp
            return true
          else do
            iunlockput sb dp
            linkBad sb ip
  | _, _ => return false

/-- the loop of `isdirempty`, from offset off on -/
def isdiremptyLoop (sb : Superblock) (dp : ℕ) : ℕ → ℕ → FsM Bool
  | 0, _ => return true
  | n + 1, off => do
    let r ← readi sb dp .kernel off DESIZE
    let l := r.getD []
    if l.length ≠ DESIZE then throw .isdiremptyRead
    else if (Dirent.decode l).inum ≠ 0 then return false
    else isdiremptyLoop sb dp n (off + DESIZE)

/-- is the directory dp empty except for "." and ".." ? -/
def isdirempty (sb : Superblock) (dp : ℕ) : FsM Bool := do
  let x ← getInode dp
  isdiremptyLoop sb dp ((x.din.size.toNat - 2 * DESIZE + (DESIZE - 1)) / DESIZE) (2 * DESIZE)

def DOT : List UInt8 := [46]
def DOTDOT : List UInt8 := [46, 46]

/-- the end of `sys_unlink` at label bad -/
def unlinkBad (sb : Superblock) (dp : ℕ) : FsM Bool := do
  iunlockput sb dp
  endOp
  return false

def sysUnlink (sb : Superblock) (p : ℕ) (path : Option (List UInt8)) : FsM Bool := do
  match path with
  | none => return false
  | some path =>
    beginOp
    match ← nameiparent sb p path with
    | none =>
      endOp
      return false
    | some (dp, name) =>
      ilock sb dp
      -- cannot unlink "." or ".."
      if namecmp name DOT ∨ namecmp name DOTDOT then unlinkBad sb dp
      else
        match ← dirlookup sb dp name with
        | none => unlinkBad sb dp
        | some (ip, off) =>
          ilock sb ip
          let x ← getInode ip
          if x.din.nlink.toInt16 < 1 then throw .unlinkNlink
          else do
            let empty ← if x.din.type = T_DIR then isdirempty sb ip else pure true
            if empty = false then do
              iunlockput sb ip
              unlinkBad sb dp
            else do
              let r ← writei sb dp (.kernel (List.replicate DESIZE 0)) off DESIZE
              if r ≠ some DESIZE then throw .unlinkWritei
              else do
                if x.din.type = T_DIR then setNlink sb dp (· - 1)
                iunlockput sb dp
                setNlink sb ip (· - 1)
                iunlockput sb ip
                endOp
                return true

/-- the end of `sys_unlink`, when the entry has been cleared -/
def unlinkDone (sb : Superblock) (dp ip : ℕ) : FsM Bool := do
  iunlockput sb dp
  setNlink sb ip (· - 1)
  iunlockput sb ip
  endOp
  return true

/-- `sys_unlink` with both inodes locked; empty tells whether the inode may be removed -/
def unlinkEntry (sb : Superblock) (dp ip off : ℕ) (type : UInt16) (empty : Bool) : FsM Bool :=
  if empty = false then do
    iunlockput sb ip
    unlinkBad sb dp
  else do
    let r ← writei sb dp (.kernel (List.replicate DESIZE 0)) off DESIZE
    if r ≠ some DESIZE then throw .unlinkWritei
    else if type = T_DIR then do
      setNlink sb dp (· - 1)
      unlinkDone sb dp ip
    else unlinkDone sb dp ip

/-- `sys_unlink` with the directory locked -/
def unlinkIn (sb : Superblock) (dp : ℕ) (name : List UInt8) : FsM Bool :=
  if namecmp name DOT ∨ namecmp name DOTDOT then unlinkBad sb dp
  else do
    match ← dirlookup sb dp name with
    | none => unlinkBad sb dp
    | some (ip, off) =>
      ilock sb ip
      let x ← getInode ip
      if x.din.nlink.toInt16 < 1 then throw .unlinkNlink
      else if x.din.type = T_DIR then do
        let empty ← isdirempty sb ip
        unlinkEntry sb dp ip off x.din.type empty
      else unlinkEntry sb dp ip off x.din.type true

theorem sysUnlink_some (sb : Superblock) (p : ℕ) (path : List UInt8) :
    sysUnlink sb p (some path) = (do
      beginOp
      match ← nameiparent sb p path with
      | none =>
        endOp
        return false
      | some (dp, name) =>
        ilock sb dp
        unlinkIn sb dp name) := rfl

/-- the end of `create` at label fail -/
def createFail (sb : Superblock) (ip dp : ℕ) : FsM (Option ℕ) := do
  setNlink sb ip fun _ => 0
  iunlockput sb ip
  iunlockput sb dp
  return none

/-- `create` when the name exists: a file may be opened -/
def createOld (sb : Superblock) (ip : ℕ) (type : UInt16) : FsM (Option ℕ) := do
  ilock sb ip
  let x ← getInode ip
  if type = T_FILE ∧ (x.din.type = T_FILE ∨ x.din.type = T_DEVICE) then return some ip
  else do
    iunlockput sb ip
    return none

/-- create . and .. entries in a new directory -/
def createDots (sb : Superblock) (ip dp : ℕ) (type : UInt16) : FsM Bool := do
  let x ← getInode ip
  let d ← getInode dp
  if type = T_DIR then
    if ← dirlink sb ip DOT x.inum then dirlink sb ip DOTDOT d.inum else return false
  else return true

/-- the last part of `create`: the entry for the new inode in the directory dp -/
def createLink (sb : Superblock) (ip dp : ℕ) (name : List UInt8) (type : UInt16) : FsM (Option ℕ) := do
  let x ← getInode ip
  if ← dirlink sb dp name x.inum then do
    -- for ".."
    if type = T_DIR then setNlink sb dp (· + 1)
    iunlockput sb dp
    return some ip
  else createFail sb ip dp

/-- `create` when the name does not exist -/
def createNew (sb : Superblock) (dp : ℕ) (name : List UInt8) (type major minor : UInt16) : FsM (Option ℕ) := do
  match ← ialloc sb type with
  | none =>
    iunlockput sb dp
    return none
  | some ip =>
    ilock sb ip
    let x ← getInode ip
    setInode ip { x with din := { x.din with major := major, minor := minor, nlink := 1 } }
    iupdate sb ip
    if ← createDots sb ip dp type then createLink sb ip dp name type else createFail sb ip dp

/-- create a new inode, or, for a file, open an existing one; returns it locked -/
def create (sb : Superblock) (p : ℕ) (path : List UInt8) (type major minor : UInt16) : FsM (Option ℕ) := do
  match ← nameiparent sb p path with
  | none => return none
  | some (dp, name) =>
    ilock sb dp
    match ← dirlookup sb dp name with
    | some (ip, _) =>
      iunlockput sb dp
      createOld sb ip type
    | none => createNew sb dp name type major minor

/-! ## Open -/

/-- the loop of `sys_open` that resolves symbolic links, with `left` more links allowed; returns the inode locked -/
def openLoop (sb : Superblock) (p omode : ℕ) : ℕ → List UInt8 → FsM (Option ℕ)
  | left, path => do
    match ← namei sb p path with
    | none => return none
    | some ip =>
      ilock sb ip
      let x ← getInode ip
      if x.din.type = T_SYMLINK ∧ omode.testBit O_NOFOLLOW = false then
        match left with
        | 0 => do
          iunlockput sb ip
          return none
        | left + 1 => do
          let r ← readi sb ip .kernel 0 MAXPATH
          iunlockput sb ip
          if (r.getD []).length = 0 then return none
          else openLoop sb p omode left ((r.getD []).takeWhile fun c => c ≠ 0)
      else return some ip

/-- leave `sys_open` without opening the inode -/
def openFail (sb : Superblock) (ip : ℕ) : FsM (Option ℕ) := do
  iunlockput sb ip
  endOp
  return none

/-- the end of `sys_open`, with the inode to open locked -/
def openFinish (sb : Superblock) (p omode ip : ℕ) : FsM (Option ℕ) := do
  let x ← getInode ip
  if x.din.type = T_DEVICE ∧ (x.din.major.toInt16 < 0 ∨ x.din.major.toNat ≥ NDEV) then openFail sb ip
  else
    match ← filealloc with
    | none => openFail sb ip
    | some f =>
      match ← fdalloc p f with
      | none =>
        fileclose sb f
        openFail sb ip
      | some fd =>
        let y ← getFile f
        setFile f { y with
          type := if x.din.type = T_DEVICE then .device else .inode
          major := if x.din.type = T_DEVICE then x.din.major else y.major
          off := if omode.testBit O_APPEND ∧ x.din.type = T_FILE then x.din.size.toNat
            else if x.din.type = T_DEVICE then y.off else 0
          ip := ip
          readable := !omode.testBit O_WRONLY
          writable := omode.testBit O_WRONLY || omode.testBit O_RDWR }
        if omode.testBit O_TRUNC ∧ x.din.type = T_FILE ∧ omode.testBit O_APPEND = false then itrunc sb ip
        iunlock ip
        endOp
        return some fd

def sysOpen (sb : Superblock) (p : ℕ) (path : Option (List UInt8)) (omode : ℕ) : FsM (Option ℕ) := do
  match path with
  | none => return none
  | some path =>
    beginOp
    if omode.testBit O_CREATE then
      match ← create sb p path T_FILE 0 0 with
      | none =>
        endOp
        return none
      | some ip => openFinish sb p omode ip
    else
      match ← openLoop sb p omode 10 path with
      | none =>
        endOp
        return none
      | some ip =>
        let x ← getInode ip
        if x.din.type = T_DIR ∧ omode ≠ 0 then openFail sb ip
        else openFinish sb p omode ip

/-! ## The other calls -/

/-- a call that creates an inode and does not keep it -/
def sysCreate (sb : Superblock) (p : ℕ) (path : Option (List UInt8)) (type major minor : UInt16) : FsM Bool := do
  beginOp
  match path with
  | none =>
    endOp
    return false
  | some path =>
    match ← create sb p path type major minor with
    | none =>
      endOp
      return false
    | some ip =>
      iunlockput sb ip
      endOp
      return true

def sysMkdir (sb : Superblock) (p : ℕ) (path : Option (List UInt8)) : FsM Bool := sysCreate sb p path T_DIR 0 0

def sysMknod (sb : Superblock) (p : ℕ) (path : Option (List UInt8)) (major minor : UInt16) : FsM Bool :=
  sysCreate sb p path T_DEVICE major minor

def sysSymlink (sb : Superblock) (p : ℕ) (target path : Option (List UInt8)) : FsM Bool := do
  match target, path with
  | some target, some path => do
    beginOp
    match ← create sb p path T_SYMLINK 0 0 with
    | none =>
      endOp
      return false
    | some ip =>
      let r ← writei sb ip (.kernel target) 0 target.length
      iunlockput sb ip
      endOp
      return r == some target.length
  | _, _ => return false

def sysChdir (sb : Superblock) (p : ℕ) (path : Option (List UInt8)) : FsM Bool := do
  let pr ← getProc p
  beginOp
  match path with
  | none =>
    endOp
    return false
  | some path =>
    match ← namei sb p path with
    | none =>
      endOp
      return false
    | some ip =>
      ilock sb ip
      let x ← getInode ip
      if x.din.type ≠ T_DIR then do
        iunlockput sb ip
        endOp
        return false
      else do
        iunlock ip
        iput sb (pr.cwd.getD 0)
        endOp
        setProc p { pr with cwd := some ip }
        return true

/-! ## Exec -/

def ELF_MAGIC : ℕ := 0x464C457F
def ELF_PROG_LOAD : ℕ := 1
/-- `sizeof(struct elfhdr)` -/
def EHSIZE : ℕ := 64
/-- `sizeof(struct proghdr)` -/
def PHSIZE : ℕ := 56

/-- the number stored in the n bytes at offset off -/
def field (l : List UInt8) (off n : ℕ) : ℕ := leVal ((l.drop off).take n)

/-- the reads of `loadseg`, page by page from i on -/
def loadseg (sb : Superblock) (ip offset sz : ℕ) : ℕ → ℕ → FsM Bool
  | 0, _ => return true
  | fuel + 1, i =>
    if i < sz then do
      let n := if sz - i < PGSIZE then sz - i else PGSIZE
      let r ← readi sb ip .kernel ((offset + i) % 2 ^ 32) n
      if (r.getD []).length ≠ n then return false
      else loadseg sb ip offset sz fuel (i + PGSIZE)
    else return true

/-- the answers of the memory allocator to `kexec` -/
structure ExecMem where
  /-- `proc_pagetable` succeeds -/
  pagetable : Bool
  /-- `uvmalloc` for program header i succeeds -/
  segment : ℕ → Bool
  /-- the stack is allocated and takes the arguments -/
  stack : Bool

/-- the loop of `kexec` over the program headers, from header i at offset off on -/
def execLoop (sb : Superblock) (ip : ℕ) (mem : ExecMem) : ℕ → ℕ → ℕ → FsM Bool
  | 0, _, _ => return true
  | left + 1, i, off => do
    let r ← readi sb ip .kernel off PHSIZE
    let ph := r.getD []
    let filesz := field ph 32 8
    let vaddr := field ph 16 8
    let memsz := field ph 40 8
    if ph.length ≠ PHSIZE then return false
    else if field ph 0 4 ≠ ELF_PROG_LOAD then execLoop sb ip mem left (i + 1) ((off + PHSIZE) % 2 ^ 32)
    else if memsz < filesz then return false
    else if (vaddr + memsz) % 2 ^ 64 < vaddr then return false
    else if vaddr % PGSIZE ≠ 0 then return false
    else if mem.segment i = false then return false
    else if ← loadseg sb ip (field ph 8 8 % 2 ^ 32) (filesz % 2 ^ 32) (filesz % 2 ^ 32) 0 then
      execLoop sb ip mem left (i + 1) ((off + PHSIZE) % 2 ^ 32)
    else return false

/-- the part of `kexec` that reads the program file, until label bad or the end of the loop -/
def execLoad (sb : Superblock) (ip : ℕ) (mem : ExecMem) : FsM Bool := do
  let r ← readi sb ip .kernel 0 EHSIZE
  let elf := r.getD []
  if elf.length ≠ EHSIZE then return false
  else if field elf 0 4 ≠ ELF_MAGIC then return false
  else if mem.pagetable = false then return false
  else execLoop sb ip mem (field elf 56 2) 0 (field elf 32 8 % 2 ^ 32)

/-- what `kexec` does with the program file; the new memory image is not part of the file system -/
def kexec (sb : Superblock) (p : ℕ) (path : List UInt8) (mem : ExecMem) : FsM Bool := do
  beginOp
  match ← namei sb p path with
  | none =>
    endOp
    return false
  | some ip =>
    ilock sb ip
    let ok ← execLoad sb ip mem
    iunlockput sb ip
    endOp
    return ok && mem.stack

/-! ## Processes -/

/-- the descriptors `kfork` duplicates, from fd on -/
def forkFiles (p : ℕ) : ℕ → ℕ → FsM Unit
  | 0, _ => return ()
  | n + 1, fd => do
    let x ← getProc p
    match x.ofile fd with
    | none => forkFiles p n (fd + 1)
    | some f =>
      filedup f
      forkFiles p n (fd + 1)

/-- `kfork`: process q starts with the files and the current directory of process p -/
def fork (p q : ℕ) : FsM Unit := do
  forkFiles p NOFILE 0
  let x ← getProc p
  let _ ← idup (x.cwd.getD 0)
  setProc q x

/-- the descriptors `kexit` closes, from fd on -/
def exitFiles (sb : Superblock) (p : ℕ) : ℕ → ℕ → FsM Unit
  | 0, _ => return ()
  | n + 1, fd => do
    let x ← getProc p
    match x.ofile fd with
    | none => exitFiles sb p n (fd + 1)
    | some f =>
      fileclose sb f
      let x ← getProc p
      setProc p { x with ofile := Function.update x.ofile fd none }
      exitFiles sb p n (fd + 1)

/-- `kexit` -/
def exit (sb : Superblock) (p : ℕ) : FsM Unit := do
  exitFiles sb p NOFILE 0
  let x ← getProc p
  beginOp
  iput sb (x.cwd.getD 0)
  endOp
  setProc p { x with cwd := none }

end Xv6.Fs
