/-
Physical memory and page tables (kernel/kalloc.c, kernel/vm.c, the page-table macros of kernel/riscv.h, and
`proc_pagetable` and `proc_freepagetable` of kernel/proc.c).

Physical memory is a byte for every address (`Core.Ram`). A page table is the address of its root page: entries are read
from memory and written to it, 8 bytes each. The allocator is the list of free pages in the order of `kmem.freelist`;
the links through the pages are left out, since `kalloc` overwrites them. `kalloc` may also fail with pages left: `deny`
says at which of the coming calls it does.

Addresses and sizes are 64-bit numbers, `int`s are integers; null pointers are `none`, and functions that return an
address as a number or 0 return a number.
-/
import Xv6.Core.Ram
import Xv6.Fs.State

namespace Xv6.Vm

open Xv6.Core
open Fs (PGSIZE)

def KERNBASE : ℕ := 0x80000000
def PHYSTOP : ℕ := KERNBASE + 128 * 1024 * 1024
def MAXVA : ℕ := 2 ^ (9 + 9 + 9 + 12 - 1)
def TRAMPOLINE : ℕ := MAXVA - PGSIZE
def TRAPFRAME : ℕ := TRAMPOLINE - PGSIZE

def PGROUNDUP (sz : ℕ) : ℕ := (sz + (PGSIZE - 1)) % 2 ^ 64 / PGSIZE * PGSIZE
def PGROUNDDOWN (a : ℕ) : ℕ := a / PGSIZE * PGSIZE

/-! ## Entries -/

def PTE_V : ℕ := 1 <<< 0
def PTE_R : ℕ := 1 <<< 1
def PTE_W : ℕ := 1 <<< 2
def PTE_X : ℕ := 1 <<< 3
def PTE_U : ℕ := 1 <<< 4

def PA2PTE (pa : ℕ) : ℕ := (pa >>> 12) <<< 10 % 2 ^ 64
def PTE2PA (pte : ℕ) : ℕ := (pte >>> 10) <<< 12 % 2 ^ 64
def PTE_FLAGS (pte : ℕ) : ℕ := pte &&& 0x3FF

def PXSHIFT (level : ℕ) : ℕ := 12 + 9 * level
def PX (level va : ℕ) : ℕ := (va >>> PXSHIFT level) &&& 0x1FF

/-- is the bit set? -/
def has (pte flag : ℕ) : Bool := pte &&& flag ≠ 0

/-! ## Memory -/

inductive Panic where
  | kfree
  | walk
  | mappagesAlign
  | mappagesSizeAlign
  | mappagesSize
  | remap
  | uvmunmapAlign
  | freewalkLeaf
  /-- `freewalk` calls itself at a fourth level, as it never does on a page table of three -/
  | freewalkDeep
  | uvmclear
  /-- a null pointer to an entry is used -/
  | nullPte
  | loadseg
deriving DecidableEq, Repr

structure Mem where
  /-- the free pages -/
  free : List ℕ
  byte : Ram
  /-- will the next calls of `kalloc` fail? -/
  deny : List Bool
  /-- the linker's symbols end and trampoline -/
  kend : ℕ
  trampoline : ℕ

abbrev VmM := StateT Mem (Except Panic)

def memset (pa : ℕ) (c : UInt8) : VmM Unit := modify fun m => { m with byte := m.byte.fill pa PGSIZE c }

/-- `memmove` of n bytes within physical memory -/
def memmove (dst src n : ℕ) : VmM Unit := modify fun m => { m with byte := m.byte.copy dst src n }

/-- `memmove` of kernel data to physical memory -/
def putBytes (dst : ℕ) (l : List UInt8) : VmM Unit := modify fun m => { m with byte := m.byte.write dst l }

def getBytes (src n : ℕ) : VmM (List UInt8) := do
  let m ← get
  return m.byte.read src n

/-- read and write `*pte` -/
def loadPte (pte : ℕ) : VmM ℕ := do
  let m ← get
  return m.byte.load 8 pte

def storePte (pte v : ℕ) : VmM Unit := modify fun m => { m with byte := m.byte.store 8 pte v }

def kfree (pa : ℕ) : VmM Unit := do
  let m ← get
  if pa % PGSIZE ≠ 0 ∨ pa < m.kend ∨ pa ≥ PHYSTOP then throw .kfree
  else do
    memset pa 1
    modify fun m => { m with free := pa :: m.free }

def kalloc : VmM (Option ℕ) := do
  let m ← get
  if m.deny.head? = some true then do
    set { m with deny := m.deny.tail }
    return none
  else
    match m.free with
    | [] => do
      set { m with deny := m.deny.tail }
      return none
    | p :: rest => do
      set { m with deny := m.deny.tail, free := rest }
      memset p 5
      return some p

/-! ## Page tables -/

/-- one level of `walk`: the page-table page below the entry of va -/
def walkLevel (va : ℕ) (alloc : Bool) (pagetable level : ℕ) : VmM (Option ℕ) := do
  let pte := pagetable + 8 * PX level va
  let e ← loadPte pte
  if has e PTE_V then return some (PTE2PA e)
  else if alloc = false then return none
  else do
    match ← kalloc with
    | none => return none
    | some page => do
      memset page 0
      storePte pte (PA2PTE page ||| PTE_V)
      return some page

/-- the address of the entry for va -/
def walk (pagetable va : ℕ) (alloc : Bool) : VmM (Option ℕ) :=
  if va ≥ MAXVA then throw .walk
  else do
    match ← walkLevel va alloc pagetable 2 with
    | none => return none
    | some t => do
      match ← walkLevel va alloc t 1 with
      | none => return none
      | some t => return some (t + 8 * PX 0 va)

/-- the physical address of a user page, 0 if it is not mapped -/
def walkaddr (pagetable va : ℕ) : VmM ℕ :=
  if va ≥ MAXVA then return 0
  else do
    match ← walk pagetable va false with
    | none => return 0
    | some pte => do
      let e ← loadPte pte
      if has e PTE_V = false then return 0
      else if has e PTE_U = false then return 0
      else return PTE2PA e

/-- the loop of `mappages`, n pages from a on: it ends after the page `last`, the n-th -/
def mappagesLoop (pagetable perm : ℕ) : ℕ → ℕ → ℕ → VmM Bool
  | 0, _, _ => return true
  | n + 1, a, pa => do
    match ← walk pagetable a true with
    | none => return false
    | some pte => do
      let e ← loadPte pte
      if has e PTE_V then throw .remap
      else do
        storePte pte (PA2PTE pa ||| perm ||| PTE_V)
        mappagesLoop pagetable perm n ((a + PGSIZE) % 2 ^ 64) ((pa + PGSIZE) % 2 ^ 64)

/-- false if a page-table page could not be allocated -/
def mappages (pagetable va size pa perm : ℕ) : VmM Bool :=
  if va % PGSIZE ≠ 0 then throw .mappagesAlign
  else if size % PGSIZE ≠ 0 then throw .mappagesSizeAlign
  else if size = 0 then throw .mappagesSize
  else mappagesLoop pagetable perm (size / PGSIZE) va pa

/-- an empty user page table -/
def uvmcreate : VmM (Option ℕ) := do
  match ← kalloc with
  | none => return none
  | some pagetable => do
    memset pagetable 0
    return some pagetable

/-- the body of the loop of `uvmunmap` -/
def unmapPage (pagetable a : ℕ) (doFree : Bool) : VmM Unit := do
  match ← walk pagetable a false with
  | none => return ()
  | some pte => do
    let e ← loadPte pte
    if has e PTE_V = false then return ()
    else do
      if doFree then kfree (PTE2PA e)
      storePte pte 0

def uvmunmapLoop (pagetable : ℕ) (doFree : Bool) : ℕ → ℕ → VmM Unit
  | 0, _ => return ()
  | n + 1, a => do
    unmapPage pagetable a doFree
    uvmunmapLoop pagetable doFree n (a + PGSIZE)

/-- remove npages of mappings starting from va: the loop ends at va + npages * PGSIZE, computed in 64 bits -/
def uvmunmap (pagetable va npages : ℕ) (doFree : Bool) : VmM Unit :=
  if va % PGSIZE ≠ 0 then throw .uvmunmapAlign
  else uvmunmapLoop pagetable doFree (((va + npages * PGSIZE) % 2 ^ 64 - va) / PGSIZE) va

/-- a number assigned to an `int` and used as a `uint64` again -/
def viaInt (n : ℕ) : ℕ := if n % 2 ^ 32 < 2 ^ 31 then n % 2 ^ 32 else n % 2 ^ 32 + (2 ^ 64 - 2 ^ 32)

/-- shrink from oldsz to newsz; returns the new size -/
def uvmdealloc (pagetable oldsz newsz : ℕ) : VmM ℕ :=
  if newsz ≥ oldsz then return oldsz
  else if PGROUNDUP newsz < PGROUNDUP oldsz then do
    uvmunmap pagetable (PGROUNDUP newsz) (viaInt ((PGROUNDUP oldsz - PGROUNDUP newsz) / PGSIZE)) true
    return newsz
  else return newsz

/-- the loop of `uvmalloc`, n pages from a on; start is where it began -/
def uvmallocLoop (pagetable start xperm : ℕ) : ℕ → ℕ → VmM Bool
  | 0, _ => return true
  | n + 1, a => do
    match ← kalloc with
    | none => do
      let _ ← uvmdealloc pagetable a start
      return false
    | some mem => do
      memset mem 0
      if ← mappages pagetable a PGSIZE mem (PTE_R ||| PTE_U ||| xperm) then
        uvmallocLoop pagetable start xperm n ((a + PGSIZE) % 2 ^ 64)
      else do
        kfree mem
        let _ ← uvmdealloc pagetable a start
        return false

/-- grow from oldsz to newsz; returns the new size, 0 on error -/
def uvmalloc (pagetable oldsz newsz xperm : ℕ) : VmM ℕ :=
  if newsz < oldsz then return oldsz
  else do
    let start := PGROUNDUP oldsz
    if ← uvmallocLoop pagetable start xperm ((newsz - start + (PGSIZE - 1)) / PGSIZE) start then return newsz
    else return 0

/-- the loop of `freewalk` from entry i on; free frees a page-table page of the next level -/
def freewalkLoop (free : ℕ → VmM Unit) (pagetable : ℕ) : ℕ → ℕ → VmM Unit
  | 0, _ => return ()
  | n + 1, i => do
    let pte ← loadPte (pagetable + 8 * i)
    if has pte PTE_V ∧ has pte (PTE_R ||| PTE_W ||| PTE_X) = false then do
      free (PTE2PA pte)
      storePte (pagetable + 8 * i) 0
      freewalkLoop free pagetable n (i + 1)
    else if has pte PTE_V then throw .freewalkLeaf
    else freewalkLoop free pagetable n (i + 1)

/-- free the page-table pages of a table of the given number of levels; all mappings must have been removed -/
def freewalk : ℕ → ℕ → VmM Unit
  | 0, _ => throw .freewalkDeep
  | levels + 1, pagetable => do
    freewalkLoop (freewalk levels) pagetable 512 0
    kfree pagetable

def uvmfree (pagetable sz : ℕ) : VmM Unit := do
  if sz > 0 then uvmunmap pagetable 0 (PGROUNDUP sz / PGSIZE) true
  freewalk 3 pagetable

/-- the loop of `uvmcopy`, n pages from i on -/
def uvmcopyLoop (old new : ℕ) : ℕ → ℕ → VmM Bool
  | 0, _ => return true
  | n + 1, i => do
    match ← walk old i false with
    | none => uvmcopyLoop old new n (i + PGSIZE)
    | some pte => do
      let e ← loadPte pte
      if has e PTE_V = false then uvmcopyLoop old new n (i + PGSIZE)
      else do
        match ← kalloc with
        | none => do
          uvmunmap new 0 (i / PGSIZE) true
          return false
        | some mem => do
          memmove mem (PTE2PA e) PGSIZE
          if ← mappages new i PGSIZE mem (PTE_FLAGS e) then uvmcopyLoop old new n (i + PGSIZE)
          else do
            kfree mem
            uvmunmap new 0 (i / PGSIZE) true
            return false

/-- copy the memory below sz from one page table to another one -/
def uvmcopy (old new sz : ℕ) : VmM Bool := uvmcopyLoop old new ((sz + (PGSIZE - 1)) / PGSIZE) 0

/-- mark an entry invalid for user access -/
def uvmclear (pagetable va : ℕ) : VmM Unit := do
  match ← walk pagetable va false with
  | none => throw .uvmclear
  | some pte => do
    let e ← loadPte pte
    storePte pte (e &&& (2 ^ 64 - 1 - PTE_U))

/-! ## Faults and copies -/

def ismapped (pagetable va : ℕ) : VmM Bool := do
  match ← walk pagetable va false with
  | none => return false
  | some pte => do
    let e ← loadPte pte
    return has e PTE_V

/-- what `myproc()` gives: p->sz and p->pagetable -/
structure Self where
  sz : ℕ
  pagetable : ℕ
deriving DecidableEq, Repr

/-- allocate a page that was not allocated by a lazy `sbrk`: its physical address, or 0 -/
def vmfault (p : Self) (pagetable va : ℕ) : VmM ℕ :=
  if va ≥ p.sz then return 0
  else do
    let va := PGROUNDDOWN va
    if ← ismapped pagetable va then return 0
    else
      match ← kalloc with
      | none => return 0
      | some mem => do
        memset mem 0
        if ← mappages p.pagetable va PGSIZE mem (PTE_W ||| PTE_U ||| PTE_R) then return mem
        else do
          kfree mem
          return 0

/-- `walkaddr`, or `vmfault` if that gives 0 -/
def userPage (p : Self) (pagetable va0 : ℕ) : VmM ℕ := do
  let pa0 ← walkaddr pagetable va0
  if pa0 = 0 then vmfault p pagetable va0 else return pa0

/-- the loop of `copyout`, which takes at least one byte a round -/
def copyoutLoop (p : Self) (pagetable : ℕ) : ℕ → ℕ → List UInt8 → VmM Bool
  | 0, _, _ => return true
  | fuel + 1, dstva, src =>
    let va0 := PGROUNDDOWN dstva
    if src = [] then return true
    else if va0 ≥ MAXVA then return false
    else do
      let pa0 ← userPage p pagetable va0
      if pa0 = 0 then return false
      else do
        match ← walk pagetable va0 false with
        | none => throw .nullPte
        | some pte => do
          let e ← loadPte pte
          if has e PTE_W = false then return false
          else do
            let n := min (PGSIZE - (dstva - va0)) src.length
            putBytes (pa0 + (dstva - va0)) (src.take n)
            copyoutLoop p pagetable fuel ((va0 + PGSIZE) % 2 ^ 64) (src.drop n)

/-- copy src to the user address dstva -/
def copyout (p : Self) (pagetable dstva : ℕ) (src : List UInt8) : VmM Bool :=
  copyoutLoop p pagetable src.length dstva src

/-- the loop of `copyin`; dst is what has been copied so far -/
def copyinLoop (p : Self) (pagetable : ℕ) : ℕ → ℕ → ℕ → List UInt8 → VmM (Bool × List UInt8)
  | 0, _, _, dst => return (true, dst)
  | fuel + 1, srcva, len, dst =>
    let va0 := PGROUNDDOWN srcva
    if len = 0 then return (true, dst)
    else do
      let pa0 ← userPage p pagetable va0
      if pa0 = 0 then return (false, dst)
      else do
        let n := min (PGSIZE - (srcva - va0)) len
        let bytes ← getBytes (pa0 + (srcva - va0)) n
        copyinLoop p pagetable fuel ((va0 + PGSIZE) % 2 ^ 64) (len - n) (dst ++ bytes)

/-- copy len bytes from the user address srcva; the result, and the bytes that were stored at dst -/
def copyin (p : Self) (pagetable srcva len : ℕ) : VmM (Bool × List UInt8) := copyinLoop p pagetable len srcva len []

/-- the bytes before the first NUL -/
def beforeNul (l : List UInt8) : List UInt8 := l.takeWhile (· ≠ 0)

/-- the loop of `copyinstr`; dst is what has been copied so far -/
def copyinstrLoop (pagetable : ℕ) : ℕ → ℕ → ℕ → List UInt8 → VmM (Bool × List UInt8)
  | 0, _, _, dst => return (false, dst)
  | fuel + 1, srcva, max, dst =>
    let va0 := PGROUNDDOWN srcva
    if max = 0 then return (false, dst)
    else do
      let pa0 ← walkaddr pagetable va0
      if pa0 = 0 then return (false, dst)
      else do
        let n := min (PGSIZE - (srcva - va0)) max
        let bytes ← getBytes (pa0 + (srcva - va0)) n
        if 0 ∈ bytes then return (true, dst ++ beforeNul bytes ++ [0])
        else copyinstrLoop pagetable fuel ((va0 + PGSIZE) % 2 ^ 64) (max - n) (dst ++ bytes)

/-- copy a string of at most max bytes from srcva -/
def copyinstr (pagetable srcva max : ℕ) : VmM (Bool × List UInt8) := copyinstrLoop pagetable max srcva max []

/-! ## Arguments of system calls -/

/-- the number at a user address -/
def fetchaddr (p : Self) (addr : ℕ) : VmM (Option ℕ) :=
  if addr ≥ p.sz ∨ (addr + 8) % 2 ^ 64 > p.sz then return none
  else do
    let (ok, bytes) ← copyin p p.pagetable addr 8
    if ok then return some (leVal bytes) else return none

/-- the string at a user address; `fetchstr` returns its length -/
def fetchstr (p : Self) (addr max : ℕ) : VmM (Option (List UInt8)) := do
  let (ok, buf) ← copyinstr p.pagetable addr max
  if ok then return some (beforeNul buf) else return none

/-- a register in the trapframe: a0 is at byte 112 of it -/
def argraw (trapframe n : ℕ) : VmM ℕ := do
  let m ← get
  return m.byte.load 8 (trapframe + 112 + 8 * n)

def argstr (p : Self) (trapframe n max : ℕ) : VmM (Option (List UInt8)) := do
  let addr ← argraw trapframe n
  fetchstr p addr max

/-! ## The page table of a process -/

/-- a page table with no user memory, but with trampoline and trapframe pages -/
def procPagetable (trapframe : ℕ) : VmM (Option ℕ) := do
  match ← uvmcreate with
  | none => return none
  | some pagetable => do
    let m ← get
    if ← mappages pagetable TRAMPOLINE PGSIZE m.trampoline (PTE_R ||| PTE_X) then
      if ← mappages pagetable TRAPFRAME PGSIZE trapframe (PTE_R ||| PTE_W) then return some pagetable
      else do
        uvmunmap pagetable TRAMPOLINE 1 false
        uvmfree pagetable 0
        return none
    else do
      uvmfree pagetable 0
      return none

def procFreepagetable (pagetable sz : ℕ) : VmM Unit := do
  uvmunmap pagetable TRAMPOLINE 1 false
  uvmunmap pagetable TRAPFRAME 1 false
  uvmfree pagetable sz

end Xv6.Vm
