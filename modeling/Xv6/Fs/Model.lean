/-
The file system proper (kernel/fs.c), function by function: block allocator, inodes, inode content, directories and
paths. Loops are recursions on a count that bounds their rounds; where the count runs out the loop has ended.
-/
import Xv6.Fs.State

namespace Xv6.Fs

open Xv6.Core

/-! ## Blocks -/

/-- zero a block -/
def bzero (bno : ℕ) : FsM Unit := do
  let _ ← bread bno
  store bno zeroBlock
  logWrite bno
  brelse bno

/-- the inner loop of `balloc`: the first free bit of a bitmap block, from bit bi on -/
def firstFree (sb : Superblock) (data : Block) (b : ℕ) : ℕ → ℕ → Option ℕ
  | 0, _ => none
  | n + 1, bi =>
    if b + bi < sb.size then
      if bit data bi = false then some bi else firstFree sb data b n (bi + 1)
    else none

/-- the outer loop of `balloc`, from block b on; sizes are such that the source's int b does not overflow -/
def ballocLoop (sb : Superblock) : ℕ → ℕ → FsM ℕ
  | 0, _ => return 0
  | n + 1, b =>
    if b < sb.size then do
      let data ← bread (bblock sb b)
      match firstFree sb data b BPB 0 with
      | some bi =>
        store (bblock sb b) (setBit data bi)
        logWrite (bblock sb b)
        brelse (bblock sb b)
        bzero (b + bi)
        return b + bi
      | none =>
        brelse (bblock sb b)
        ballocLoop sb n (b + BPB)
    else return 0

/-- allocate a zeroed disk block; 0 if out of disk space -/
def balloc (sb : Superblock) : FsM ℕ := ballocLoop sb (sb.size / BPB + 1) 0

/-- free a disk block -/
def bfree (sb : Superblock) (b : ℕ) : FsM Unit := do
  let data ← bread (bblock sb b)
  if bit data (b % BPB) = false then throw .freeingFree
  else do
    store (bblock sb b) (clearBit data (b % BPB))
    logWrite (bblock sb b)
    brelse (bblock sb b)

/-! ## Inodes -/

/-- the entry of the inode table that holds inode inum -/
def St.find (s : St) (inum : ℕ) : Option ℕ :=
  (List.range NINODE).find? fun k => 0 < (s.inode k).ref ∧ (s.inode k).inum = inum

/-- a free entry of the inode table -/
def St.empty (s : St) : Option ℕ := (List.range NINODE).find? fun k => (s.inode k).ref = 0

/-- find the inode and return the in-memory copy, without locking it or reading it from disk -/
def iget (inum : ℕ) : FsM ℕ := do
  let s ← get
  match s.find inum with
  | some k =>
    setInode k { s.inode k with ref := (s.inode k).ref + 1 }
    return k
  | none =>
    match s.empty with
    | none => throw .igetNoInodes
    | some k =>
      setInode k { s.inode k with inum := inum, ref := 1, valid := false }
      return k

def iallocLoop (sb : Superblock) (type : UInt16) : ℕ → ℕ → FsM (Option ℕ)
  | 0, _ => return none
  | n + 1, inum =>
    if inum < sb.ninodes then do
      let data ← bread (iblock sb inum)
      if (getDinode data (inum % IPB)).type = 0 then do
        store (iblock sb inum) (setDinode data (inum % IPB) { Dinode.zero with type := type })
        logWrite (iblock sb inum)
        brelse (iblock sb inum)
        let ip ← iget inum
        return some ip
      else do
        brelse (iblock sb inum)
        iallocLoop sb type n (inum + 1)
    else return none

/-- allocate an inode, marked allocated by its type; none if there is no free inode -/
def ialloc (sb : Superblock) (type : UInt16) : FsM (Option ℕ) := iallocLoop sb type sb.ninodes 1

/-- copy a modified in-memory inode to disk -/
def iupdate (sb : Superblock) (ip : ℕ) : FsM Unit := do
  let x ← getInode ip
  let data ← bread (iblock sb x.inum)
  store (iblock sb x.inum) (setDinode data (x.inum % IPB) x.din)
  logWrite (iblock sb x.inum)
  brelse (iblock sb x.inum)

/-- increment reference count for ip -/
def idup (ip : ℕ) : FsM ℕ := do
  let x ← getInode ip
  setInode ip { x with ref := x.ref + 1 }
  return ip

/-- lock the inode, and read it from disk if necessary -/
def ilock (sb : Superblock) (ip : ℕ) : FsM Unit := do
  let x ← getInode ip
  if x.ref < 1 then throw .ilock
  else if x.locked then throw .deadlock
  else if x.valid then setInode ip { x with locked := true }
  else do
    let data ← bread (iblock sb x.inum)
    let din := getDinode data (x.inum % IPB)
    brelse (iblock sb x.inum)
    setInode ip { x with locked := true, valid := true, din := din }
    if din.type = 0 then throw .ilockNoType else return ()

def iunlock (ip : ℕ) : FsM Unit := do
  let x ← getInode ip
  if x.locked = false ∨ x.ref < 1 then throw .iunlock
  else setInode ip { x with locked := false }

/-! ## Inode content -/

/-- set an address of the in-memory inode -/
def setAddr (ip k a : ℕ) : FsM Unit := do
  let x ← getInode ip
  setInode ip { x with din := x.din.setAddr k a }

/-- allocate a block and record it as address k of the inode; 0 if out of disk space -/
def ballocAddr (sb : Superblock) (ip k : ℕ) : FsM ℕ := do
  let addr ← balloc sb
  if addr = 0 then return 0
  else do
    setAddr ip k addr
    return addr

/-- the end of `bmap`: entry j of the indirect block ind -/
def bmapEntry (sb : Superblock) (ind j : ℕ) : FsM ℕ := do
  let data ← bread ind
  if word data j = 0 then do
    let addr ← balloc sb
    if addr ≠ 0 then do
      store ind (setWord data j addr)
      logWrite ind
    brelse ind
    return addr
  else do
    brelse ind
    return word data j

/-- the disk block address of the nth block in inode ip, allocated if there is no such block; 0 if out of disk space -/
def bmap (sb : Superblock) (ip bn : ℕ) : FsM ℕ := do
  let x ← getInode ip
  if bn < NDIRECT then
    if x.din.addr bn = 0 then ballocAddr sb ip bn else return x.din.addr bn
  else if bn - NDIRECT < NINDIRECT then do
    -- load indirect block, allocating if necessary
    let ind ← if x.din.addr NDIRECT = 0 then ballocAddr sb ip NDIRECT else pure (x.din.addr NDIRECT)
    if ind = 0 then return 0 else bmapEntry sb ind (bn - NDIRECT)
  else throw .bmapRange

/-- the body of the first loop of `itrunc` -/
def freeAddr (sb : Superblock) (ip k : ℕ) : FsM Unit := do
  let x ← getInode ip
  if x.din.addr k ≠ 0 then do
    bfree sb (x.din.addr k)
    setAddr ip k 0

/-- the first loop of `itrunc`, from address i on -/
def itruncDirect (sb : Superblock) (ip : ℕ) : ℕ → ℕ → FsM Unit
  | 0, _ => return ()
  | n + 1, i => do
    freeAddr sb ip i
    itruncDirect sb ip n (i + 1)

/-- the second loop of `itrunc`: free the blocks that an indirect block lists, from entry j on -/
def itruncIndirect (sb : Superblock) (data : Block) : ℕ → ℕ → FsM Unit
  | 0, _ => return ()
  | n + 1, j => do
    if word data j ≠ 0 then bfree sb (word data j)
    itruncIndirect sb data n (j + 1)

/-- the indirect block of `itrunc` -/
def freeIndirect (sb : Superblock) (ip : ℕ) : FsM Unit := do
  let x ← getInode ip
  if x.din.addr NDIRECT ≠ 0 then do
    let data ← bread (x.din.addr NDIRECT)
    itruncIndirect sb data NINDIRECT 0
    brelse (x.din.addr NDIRECT)
    bfree sb (x.din.addr NDIRECT)
    setAddr ip NDIRECT 0

/-- truncate inode (discard contents) -/
def itrunc (sb : Superblock) (ip : ℕ) : FsM Unit := do
  itruncDirect sb ip NDIRECT 0
  freeIndirect sb ip
  let x ← getInode ip
  setInode ip { x with din := { x.din with size := 0 } }
  iupdate sb ip

/-- the branch of `iput` for an inode with no links and no other references: truncate and free -/
def ifree (sb : Superblock) (ip : ℕ) : FsM Unit := do
  let x ← getInode ip
  if x.locked then throw .deadlock
  else do
    setInode ip { x with locked := true }
    itrunc sb ip
    let x ← getInode ip
    setInode ip { x with din := { x.din with type := 0 } }
    iupdate sb ip
    let x ← getInode ip
    setInode ip { x with valid := false, locked := false }

/-- drop a reference; if it was the last one and the inode has no links, free the inode and its content on disk -/
def iput (sb : Superblock) (ip : ℕ) : FsM Unit := do
  let x ← getInode ip
  if x.ref = 1 ∧ x.valid = true ∧ x.din.nlink = 0 then ifree sb ip
  let x ← getInode ip
  setInode ip { x with ref := x.ref - 1 }

/-- common idiom: unlock, then put -/
def iunlockput (sb : Superblock) (ip : ℕ) : FsM Unit := do
  iunlock ip
  iput sb ip

/-- the body of `ireclaim`: free inode inum if it is in use and has no links -/
def reclaim (sb : Superblock) (inum : ℕ) : FsM Unit := do
  let data ← bread (iblock sb inum)
  let din := getDinode data (inum % IPB)
  if din.type ≠ 0 ∧ din.nlink = 0 then do
    let ip ← iget inum
    brelse (iblock sb inum)
    beginOp
    ilock sb ip
    iunlock ip
    iput sb ip
    endOp
  else brelse (iblock sb inum)

/-- the loop of `ireclaim`, from inode inum on -/
def ireclaimLoop (sb : Superblock) : ℕ → ℕ → FsM Unit
  | 0, _ => return ()
  | n + 1, inum => do
    reclaim sb inum
    ireclaimLoop sb n (inum + 1)

/-- free the inodes that were orphaned when the system went down -/
def ireclaim (sb : Superblock) : FsM Unit := ireclaimLoop sb (sb.ninodes - 1) 1

/-- the loop of `readi`: `rest` bytes to go from offset off; the bytes read so far, none after a failed copy -/
def readiLoop (sb : Superblock) (ip : ℕ) (dst : Dst) : ℕ → ℕ → ℕ → List UInt8 → FsM (Option (List UInt8))
  | 0, _, _, acc => return some acc
  | fuel + 1, off, rest, acc =>
    if rest = 0 then return some acc
    else do
      let addr ← bmap sb ip (off / BSIZE)
      if addr = 0 then return some acc
      else do
        let data ← bread addr
        let m := min rest (BSIZE - off % BSIZE)
        brelse addr
        if eitherCopyout dst acc.length m then
          readiLoop sb ip dst fuel (off + m) (rest - m) (acc ++ data.read (off % BSIZE) m)
        else return none

/-- read data from inode; none stands for -1 -/
def readi (sb : Superblock) (ip : ℕ) (dst : Dst) (off n : ℕ) : FsM (Option (List UInt8)) := do
  let x ← getInode ip
  if off > x.din.size.toNat ∨ off + n ≥ 2 ^ 32 then return some []
  else
    let n := if off + n > x.din.size.toNat then x.din.size.toNat - off else n
    readiLoop sb ip dst n off n []

/-- the part of `either_copyin` that reaches the buffer -/
def fill (addr : ℕ) (data : Block) (off : ℕ) (bytes : List UInt8) : FsM Unit :=
  if bytes = [] then return () else store addr (data.write off bytes)

/-- the loop of `writei`: `tot` bytes written and `rest` to go, from offset off; the final `tot` and `off` -/
def writeiLoop (sb : Superblock) (ip : ℕ) (src : Src) : ℕ → ℕ → ℕ → ℕ → FsM (ℕ × ℕ)
  | 0, tot, off, _ => return (tot, off)
  | fuel + 1, tot, off, rest =>
    if rest = 0 then return (tot, off)
    else do
      let addr ← bmap sb ip (off / BSIZE)
      if addr = 0 then return (tot, off)
      else do
        let data ← bread addr
        let m := min rest (BSIZE - off % BSIZE)
        let r := eitherCopyin src tot m
        fill addr data (off % BSIZE) r.1
        if r.2 then do
          logWrite addr
          brelse addr
          writeiLoop sb ip src fuel (tot + m) (off + m) (rest - m)
        else do
          brelse addr
          return (tot, off)

/-- write data to inode; none stands for -1 -/
def writei (sb : Superblock) (ip : ℕ) (src : Src) (off n : ℕ) : FsM (Option ℕ) := do
  let x ← getInode ip
  if off > x.din.size.toNat ∨ off + n ≥ 2 ^ 32 then return none
  else if off + n > MAXFILE * BSIZE then return none
  else do
    let r ← writeiLoop sb ip src n 0 off n
    let x ← getInode ip
    if r.2 > x.din.size.toNat then
      setInode ip { x with din := { x.din with size := UInt32.ofNat r.2 } }
    iupdate sb ip
    return some r.1

/-! ## Directories -/

/-- the loop of `dirlookup`, from offset off on -/
def dirlookupLoop (sb : Superblock) (dp : ℕ) (name : List UInt8) : ℕ → ℕ → FsM (Option (ℕ × ℕ))
  | 0, _ => return none
  | n + 1, off => do
    let r ← readi sb dp .kernel off DESIZE
    let l := r.getD []
    if l.length ≠ DESIZE then throw .dirlookupRead
    else
      let de := Dirent.decode l
      if de.inum = 0 then dirlookupLoop sb dp name n (off + DESIZE)
      else if namecmp name de.name then do
        let ip ← iget de.inum
        return some (ip, off)
      else dirlookupLoop sb dp name n (off + DESIZE)

/-- look for a directory entry in a directory; the inode and the byte offset of the entry -/
def dirlookup (sb : Superblock) (dp : ℕ) (name : List UInt8) : FsM (Option (ℕ × ℕ)) := do
  let x ← getInode dp
  if x.din.type ≠ T_DIR then throw .dirlookupNotDir
  else dirlookupLoop sb dp name ((x.din.size.toNat + (DESIZE - 1)) / DESIZE) 0

/-- the loop of `dirlink`: the offset of an empty dirent, or of the end -/
def dirlinkLoop (sb : Superblock) (dp : ℕ) : ℕ → ℕ → FsM ℕ
  | 0, off => return off
  | n + 1, off => do
    let r ← readi sb dp .kernel off DESIZE
    let l := r.getD []
    if l.length ≠ DESIZE then throw .dirlinkRead
    else if (Dirent.decode l).inum = 0 then return off
    else dirlinkLoop sb dp n (off + DESIZE)

/-- write a new directory entry (name, inum) into the directory dp; false stands for -1 -/
def dirlink (sb : Superblock) (dp : ℕ) (name : List UInt8) (inum : ℕ) : FsM Bool := do
  -- check that name is not present
  match ← dirlookup sb dp name with
  | some (ip, _) =>
    iput sb ip
    return false
  | none =>
    let x ← getInode dp
    let off ← dirlinkLoop sb dp ((x.din.size.toNat + (DESIZE - 1)) / DESIZE) 0
    let r ← writei sb dp (.kernel (Dirent.bytes ⟨inum, strncpy DIRSIZ name⟩)) off DESIZE
    return r == some DESIZE

/-! ## Paths -/

/-- the character '/' -/
def SLASH : UInt8 := 47

/-- the next path element, cut to DIRSIZ bytes, and the path that follows it -/
def skipelem (path : List UInt8) : Option (List UInt8 × List UInt8) :=
  let path := path.dropWhile fun c => c = SLASH
  if path = [] then none
  else some ((path.takeWhile fun c => c ≠ SLASH).take DIRSIZ,
    (path.dropWhile fun c => c ≠ SLASH).dropWhile fun c => c = SLASH)

/-- the end of `namex`, when no path element is left -/
def namexEnd (sb : Superblock) (parent : Bool) (ip : ℕ) (name : List UInt8) : FsM (Option (ℕ × List UInt8)) :=
  if parent then do
    iput sb ip
    return none
  else return some (ip, name)

/-- the loop of `namex` -/
def namexLoop (sb : Superblock) (parent : Bool) : ℕ → List UInt8 → ℕ → List UInt8 → FsM (Option (ℕ × List UInt8))
  | 0, _, ip, name => namexEnd sb parent ip name
  | fuel + 1, path, ip, name =>
    match skipelem path with
    | none => namexEnd sb parent ip name
    | some (name, path) => do
      ilock sb ip
      let x ← getInode ip
      if x.din.type ≠ T_DIR then do
        iunlockput sb ip
        return none
      else if parent ∧ path = [] then do
        -- stop one level early
        iunlock ip
        return some (ip, name)
      else
        match ← dirlookup sb ip name with
        | none =>
          iunlockput sb ip
          return none
        | some (next, _) =>
          iunlockput sb ip
          namexLoop sb parent fuel path next name

/-- look up the inode for a path name, or its parent and the final path element; process p looks it up -/
def namex (sb : Superblock) (p : ℕ) (path : List UInt8) (parent : Bool) : FsM (Option (ℕ × List UInt8)) := do
  let pr ← getProc p
  let ip ← if path.head? = some SLASH then iget ROOTINO else idup (pr.cwd.getD 0)
  namexLoop sb parent path.length path ip []

def namei (sb : Superblock) (p : ℕ) (path : List UInt8) : FsM (Option ℕ) := do
  let r ← namex sb p path false
  return r.map Prod.fst

def nameiparent (sb : Superblock) (p : ℕ) (path : List UInt8) : FsM (Option (ℕ × List UInt8)) := namex sb p path true

end Xv6.Fs
