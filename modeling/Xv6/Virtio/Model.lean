/-
The disk driver (kernel/virtio_disk.c: `alloc_desc`, `free_desc`, `free_chain`, `alloc3_desc`, `virtio_disk_rw`,
`virtio_disk_intr`) and a virtio device.

`virtio_disk_rw` holds vdisk_lock except while it sleeps, so what a process does from its call or a wake-up to its next
sleep or its return is one step. `virtio_disk_intr` is one step for each pass of its loop, so that the device can add
entries to the used ring between two passes. The device takes the entries of the avail ring in order, works on any
number of chains and completes them in any order: it follows a chain to its third descriptor, writes 0 where that points
and appends the head of the chain to the used ring. Both rings are a `RingBuf` of NUM cells with `uint16` indices; the
avail ring's read index is the device's own, the used ring's is disk.used_idx.

For the statements the state also keeps what happened to every request; `serial` says which request a head stands for.
-/
import Xv6.Core.Machine
import Xv6.Core.Ring
import Xv6.Param

namespace Xv6.Virtio

open Xv6.Core

/-- virtio.h: NUM descriptors, and the values of a `uint16` -/
def NUM : ℕ := 8
def UINT16 : ℕ := 0x10000

/-- bits of desc.flags -/
def VRING_DESC_F_NEXT : ℕ := 1
def VRING_DESC_F_WRITE : ℕ := 2

/-- virtio_blk_req.type -/
def VIRTIO_BLK_T_IN : ℕ := 0
def VIRTIO_BLK_T_OUT : ℕ := 1

/-- what a descriptor points to: disk.ops[i], b->data or disk.info[i].status -/
inductive Addr where
  | null
  | op (i : ℕ)
  | data (b : ℕ)
  | status (i : ℕ)
deriving DecidableEq, Repr

/-- `struct virtq_desc` -/
structure Desc where
  addr : Addr
  len : ℕ
  flags : ℕ
  next : ℕ
deriving DecidableEq, Repr

/-- `struct virtio_blk_req` without its reserved field -/
structure Op where
  type : ℕ
  sector : ℕ
deriving DecidableEq, Repr

/-- disk.info[i] -/
structure Info where
  b : Option ℕ
  status : ℕ
deriving DecidableEq, Repr

/-- a request of `virtio_disk_rw`: its buffer, its number, `write` and idx[0..2] -/
structure Call where
  buf : ℕ
  serial : ℕ
  write : Bool
  i0 : ℕ
  i1 : ℕ
  i2 : ℕ
deriving DecidableEq, Repr

def Call.idx (r : Call) : List ℕ := [r.i0, r.i1, r.i2]

/-- where a process is -/
inductive Pos where
  | out
  /-- in the loop around `alloc3_desc`, asleep on &disk.free[0] or woken -/
  | alloc (b sector : ℕ) (write asleep : Bool)
  /-- in the loop `while(b->disk == 1)`, asleep on b or woken -/
  | wait (r : Call) (asleep : Bool)
deriving DecidableEq, Repr

/-- the buffer a process has called `virtio_disk_rw` with -/
def Pos.buf : Pos → Option ℕ
  | .out => none
  | .alloc b _ _ _ => some b
  | .wait r _ => some r.buf

/-- what has happened to a request -/
structure Req where
  buf : ℕ
  done : ℕ
  credits : List ℕ
  returned : Bool
deriving DecidableEq, Repr

structure St where
  desc : Store Desc
  free : Store Bool
  ops : Store Op
  info : Store Info
  /-- `b->disk` -/
  disk : Store Bool
  avail : RingBuf ℕ
  used : RingBuf ℕ
  /-- the heads of the chains the device is working on -/
  taken : List ℕ
  proc : Store Pos
  next : ℕ
  serial : Store ℕ
  req : Store Req

inductive Panic where
  | freeDesc1
  | freeDesc2
  | intrStatus
  /-- `b->disk = 0` through a null pointer -/
  | nullBuf
deriving DecidableEq, Repr

/-! ## Descriptors -/

/-- `wakeup(&disk.free[0])` -/
def Pos.wakeFree : Pos → Pos
  | .alloc b sector write _ => .alloc b sector write false
  | x => x

/-- `wakeup(b)` -/
def Pos.wakeBuf (b : ℕ) : Pos → Pos
  | .wait r z => .wait r (if r.buf = b then false else z)
  | x => x

/-- find a free descriptor, mark it non-free -/
def allocDesc (s : St) : Option (St × ℕ) :=
  ((List.range NUM).find? s.free).map fun i => ({ s with free := s.free.set i false }, i)

/-- clear a descriptor, mark it free and wake who waits for one -/
def St.putBack (s : St) (i : ℕ) : St :=
  { s with desc := s.desc.set i ⟨.null, 0, 0, 0⟩, free := s.free.set i true, proc := fun p => (s.proc p).wakeFree }

/-- mark a descriptor as free -/
def freeDesc (s : St) (i : ℕ) : Except Panic St :=
  if i ≥ NUM then .error .freeDesc1
  else if s.free i then .error .freeDesc2
  else .ok (s.putBack i)

/-- the loop of `free_chain`: `free_desc` refuses a descriptor it has freed, so there are at most NUM passes -/
def freeLoop : ℕ → St → ℕ → Except Panic St
  | 0, s, _ => .ok s
  | n + 1, s, i =>
    let flag := (s.desc i).flags
    let nxt := (s.desc i).next
    match freeDesc s i with
    | .error e => .error e
    | .ok s => if flag &&& VRING_DESC_F_NEXT ≠ 0 then freeLoop n s nxt else .ok s

def freeChain (s : St) (i : ℕ) : Except Panic St := freeLoop (NUM + 1) s i

/-- free the descriptors in a list -/
def freeAll : List ℕ → St → Except Panic St
  | [], s => .ok s
  | i :: idx, s =>
    match freeDesc s i with
    | .error e => .error e
    | .ok s => freeAll idx s

/-- the loop of `alloc3_desc` with n descriptors to go and idx allocated -/
def allocLoop : ℕ → List ℕ → St → Except Panic (St × Option (List ℕ))
  | 0, idx, s => .ok (s, some idx)
  | n + 1, idx, s =>
    match allocDesc s with
    | none => (freeAll idx s).map fun s => (s, none)
    | some (s, i) => allocLoop n (idx ++ [i]) s

def alloc3Desc (s : St) : Except Panic (St × Option (List ℕ)) := allocLoop 3 [] s

/-! ## Processes -/

/-- the part of `virtio_disk_rw` that formats the descriptors and hands the chain to the device; b->disk is now 1, so
the process goes to sleep -/
def submit (s : St) (p b sector : ℕ) (write : Bool) (i0 i1 i2 : ℕ) : St :=
  { s with
    ops := s.ops.set i0 ⟨if write then VIRTIO_BLK_T_OUT else VIRTIO_BLK_T_IN, sector⟩
    desc := ((s.desc.set i0 ⟨.op i0, 16, VRING_DESC_F_NEXT, i1⟩).set i1
      ⟨.data b, BSIZE, (if write then 0 else VRING_DESC_F_WRITE) ||| VRING_DESC_F_NEXT, i2⟩).set i2
      ⟨.status i0, 1, VRING_DESC_F_WRITE, 0⟩
    info := s.info.set i0 ⟨some b, 0xff⟩
    disk := s.disk.set b true
    avail := s.avail.put NUM UINT16 i0
    proc := s.proc.set p (.wait ⟨b, s.next, write, i0, i1, i2⟩ true)
    next := s.next + 1
    serial := s.serial.set i0 s.next
    req := s.req.set s.next ⟨b, 0, [], false⟩ }

/-- the loop around `alloc3_desc`, up to the next sleep -/
def allocate (s : St) (p b sector : ℕ) (write : Bool) : Except Panic St :=
  match alloc3Desc s with
  | .error e => .error e
  | .ok (s, none) => .ok { s with proc := s.proc.set p (.alloc b sector write true) }
  | .ok (s, some idx) => .ok (submit s p b sector write (idx.getD 0 0) (idx.getD 1 0) (idx.getD 2 0))

/-- after the loop `while(b->disk == 1)` -/
def finish (s : St) (p : ℕ) (r : Call) : Except Panic St :=
  match freeChain { s with info := s.info.set r.i0 { s.info r.i0 with b := none } } r.i0 with
  | .error e => .error e
  | .ok s => .ok { s with
      proc := s.proc.set p .out, req := s.req.set r.serial { s.req r.serial with returned := true } }

/-- process p runs on -/
def resume (s : St) (p : ℕ) : Except Panic St :=
  match s.proc p with
  | .out => .ok s
  | .alloc b sector write _ => allocate s p b sector write
  | .wait r _ => if s.disk r.buf then .ok { s with proc := s.proc.set p (.wait r true) } else finish s p r

/-! ## The device and its interrupt -/

/-- the device takes the next entry of the avail ring -/
def devTake (s : St) : St := { s with avail := s.avail.get UINT16, taken := s.taken ++ [s.avail.front NUM] }

/-- the device stores 0 through a descriptor -/
def writeStatus (info : Store Info) : Addr → Store Info
  | .status i => info.set i { info i with status := 0 }
  | _ => info

/-- the device completes the chain with head h -/
def devComplete (s : St) (h : ℕ) : St :=
  let k := s.serial h
  { s with
    info := writeStatus s.info (s.desc (s.desc (s.desc h).next).next).addr
    used := s.used.put NUM UINT16 h
    taken := s.taken.erase h
    req := s.req.set k { s.req k with done := (s.req k).done + 1 } }

/-- one pass of the loop of `virtio_disk_intr` -/
def intrPass (s : St) : Except Panic St :=
  let id := s.used.front NUM
  if (s.info id).status ≠ 0 then .error .intrStatus
  else match (s.info id).b with
    | none => .error .nullBuf
    | some b =>
      let k := s.serial id
      .ok { s with
        disk := s.disk.set b false
        proc := fun p => (s.proc p).wakeBuf b
        used := s.used.get UINT16
        req := s.req.set k { s.req k with credits := (s.req k).credits ++ [b] } }

/-! ## The machine -/

inductive Act where
  /-- process p calls `virtio_disk_rw` with buffer b, which holds block `blockno` -/
  | call (p b blockno : ℕ) (write : Bool)
  | resume (p : ℕ)
  | devTake
  | devComplete (h : ℕ)
  | intrPass
deriving DecidableEq, Repr

def step (s : St) : Act → Except Panic St
  | .call p b blockno write => allocate s p b (blockno * (BSIZE / 512) % 2 ^ 32) write
  | .resume p => resume s p
  | .devTake => .ok (devTake s)
  | .devComplete h => .ok (devComplete s h)
  | .intrPass => intrPass s

/-- the process is in a call and awake -/
def Pos.Awake : Pos → Prop
  | .out => False
  | .alloc _ _ _ z | .wait _ z => z = false

instance (x : Pos) : Decidable x.Awake := by cases x <;> unfold Pos.Awake <;> infer_instance

/-- a process calls `virtio_disk_rw` with a buffer whose lock it holds; the device and the handler look at the indices
-/
def legal (s : St) : Act → Prop
  | .call p b _ _ => s.proc p = .out ∧ ∀ q, (s.proc q).buf ≠ some b
  | .resume p => (s.proc p).Awake
  | .devTake => s.avail.r ≠ s.avail.w
  | .devComplete h => h ∈ s.taken
  | .intrPass => s.used.r ≠ s.used.w

def disk : Machine St Act Panic := ⟨legal, step⟩

/-- after `virtio_disk_init` -/
def start : St where
  desc := fun _ => ⟨.null, 0, 0, 0⟩
  free := fun _ => true
  ops := fun _ => ⟨0, 0⟩
  info := fun _ => ⟨none, 0⟩
  disk := fun _ => false
  avail := ⟨fun _ => 0, 0, 0⟩
  used := ⟨fun _ => 0, 0, 0⟩
  taken := []
  proc := fun _ => .out
  next := 0
  serial := fun _ => 0
  req := fun _ => ⟨0, 0, [], false⟩

end Xv6.Virtio
