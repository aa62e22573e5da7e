/-
TCP reassembly (`hal/plugins/sfw/alg_utils/tcp_buffer`).

A payload that starts at the current sequence number and does not touch what is stored goes
to the data handler at once.  Everything else is stored in a buffer, at its distance from the
current sequence number, and the handler is given the buffer whenever its first segment has
grown at the current sequence number.

Segments are kept as a list; `segments_[0]` of no segments is a slot whose start and end
agree.  Slabs hand out buffers of the size asked for.
-/
import Mathlib.Algebra.Group.Nat.Defs

namespace NicSw.TcpBuffer

open BitVec (ofNat)

/-- A byte of the stream. -/
abbrev Byte := BitVec 8

/-- `compare_seq_numbers`, the comparison of RFC 1982. -/
def compareSeqNumbers (seq1 seq2 : BitVec 32) : Int :=
  if seq1 = seq2 then 0
  else if seq1 < seq2 then
    if (seq2 - seq1).toNat < 2 ^ 31 then -1 else 1
  else
    if (seq1 - seq2).toNat > 2 ^ 31 then -1 else 1

/-- `segment_t`. -/
@[ext] structure Segment where
  start : BitVec 32
  stop : BitVec 32
  deriving DecidableEq, Repr

/-- `MAX_SEGMENTS`, `MIN_BUFF_SIZE` and `MAX_BUFF_SIZE`. -/
def maxSegments : Nat := 32
def minBuffSize : Nat := 2048
def maxBuffSize : Nat := 16 * 1024

/-- `tcp_buffer_t`; a buffer of size 0 is not allocated. -/
structure Buffer where
  buff : Nat → Byte
  buffSize : Nat
  curSeq : BitVec 32
  endBuffSeq : BitVec 32
  segments : List Segment

/-- `factory`. -/
def factory (seqStart : BitVec 32) (mem : Nat → Byte) : Buffer := ⟨mem, 0, seqStart, seqStart, []⟩

/-- `hal_ret_t`. -/
inductive HalRet
  | ok
  | oob
  deriving DecidableEq, Repr

/-! ### Segments -/

/-- `move_segments(cur, 1)` and the store of the new segment in slot `cur`.  Where there are
32 slots to be filled, those behind the first 30 are dropped first. -/
def insertAt (segs : List Segment) (cur : Nat) (new : Segment) : List Segment :=
  let kept := if segs.length + 1 ≥ maxSegments then segs.take (maxSegments - 2) else segs
  if cur ≤ kept.length then kept.take cur ++ new :: kept.drop cur
  else segs.take (maxSegments - 1)

/-- The loop that merges the segments behind `cur` into it, and the move of the rest. -/
def mergeNext (cur : Segment) : List Segment → List Segment
  | [] => [cur]
  | next :: rest =>
    if compareSeqNumbers cur.stop next.start ≥ 0 then
      mergeNext { cur with
        stop := if compareSeqNumbers next.stop cur.stop > 0 then next.stop else cur.stop } rest
    else cur :: next :: rest

/-- The segment is entered in order; `none` if there is no slot for it. -/
def enterSegment (segs : List Segment) (new : Segment) : Option (List Segment) :=
  let before := segs.takeWhile fun s => compareSeqNumbers new.start s.stop > 0
  match segs.drop before.length with
  | [] => if before.length < maxSegments then some (segs ++ [new]) else none
  | s :: after =>
    if compareSeqNumbers new.stop s.start < 0 then some (insertAt segs before.length new)
    else
      let s' : Segment :=
        ⟨if compareSeqNumbers new.start s.start < 0 then new.start else s.start,
          if compareSeqNumbers new.stop s.stop > 0 then new.stop else s.stop⟩
      some (before ++ mergeNext s' after)

/-! ### The buffer -/

/-- The loops that double the size, from `size`. -/
def growTo (reqd size : Nat) : Nat → Nat
  | 0 => size
  | fuel + 1 => if reqd > size ∧ size ≤ maxBuffSize then growTo reqd (2 * size) fuel else size

/-- Allocation and expansion of the buffer for a payload that ends at `stop`; `none` if it
would be too large.  `mem` is what newly allocated memory holds. -/
def reserve (t : Buffer) (stop : BitVec 32) (mem : Nat → Byte) : Option Buffer :=
  let reqd := (stop - t.curSeq).toNat
  if t.buffSize = 0 then
    let size := growTo reqd minBuffSize 4
    if size > maxBuffSize then none
    else some { t with
      buff := mem, buffSize := size, endBuffSeq := t.curSeq + ofNat 32 size }
  else if stop ≥ t.endBuffSeq then
    let size := growTo reqd t.buffSize 4
    if size > maxBuffSize then none
    else some { t with
      buff := fun i => if i < t.buffSize then t.buff i else mem i
      buffSize := size, endBuffSeq := t.curSeq + ofNat 32 size }
  else some t

/-- `memcpy(buff + off, payload, payload_len)`. -/
def copyIn (buff : Nat → Byte) (off : Nat) (payload : List Byte) : Nat → Byte := fun i =>
  if off ≤ i then (payload[i - off]?).getD (buff i) else buff i

/-- The first bytes of the buffer. -/
def bytes (buff : Nat → Byte) (n : Nat) : List Byte := (List.range n).map buff

/-- The loop that moves the payload of the segments to the front: `memmove` for each. -/
def moveDown (cur : BitVec 32) (processed : Nat) (buff : Nat → Byte) (segs : List Segment) :
    Nat → Byte :=
  segs.foldl (fun buff s =>
    let old := (s.start - cur).toNat
    copyIn buff (old - processed)
      ((List.range (s.stop - s.start).toNat).map fun i => buff (old + i))) buff

/-- What is there to be delivered: the size of the first segment, if it starts at the current
sequence number. -/
def reassembled (t : Buffer) : Nat :=
  match t.segments with
  | [] => 0
  | s :: _ => if s.start = t.curSeq then (s.stop - s.start).toNat else 0

/-- The first segment, of `n` bytes, starts later, or is dropped if it is processed
completely. -/
def advance (segs : List Segment) (n processed : Nat) : List Segment :=
  match segs with
  | [] => []
  | s :: rest =>
    if processed = n then rest
    else { s with start := s.start + ofNat 32 processed } :: rest

/-- The handler is given the first segment, and what it has consumed leaves the buffer. -/
def deliver (t : Buffer) (handler : List Byte → Nat) : List Byte × Buffer :=
  let n := reassembled t
  let data := bytes t.buff n
  let processed := handler data
  if processed = 0 then (data, t)
  else
    let segs := advance t.segments n processed
    let curSeq := t.curSeq + ofNat 32 processed
    (data,
      { t with
        buff := moveDown t.curSeq processed t.buff segs
        segments := segs, curSeq := curSeq
        endBuffSeq := curSeq + ofNat 32 t.buffSize })

/-- The part of `insert_segment` behind the direct delivery: the payload is stored, and the
handler is called if it was not. -/
def store (t : Buffer) (seq : BitVec 32) (payload : List Byte) (invoked : Bool)
    (handler : List Byte → Nat) (mem : Nat → Byte) :
    Option (HalRet × Option (List Byte) × Buffer) :=
  let stop := seq + ofNat 32 payload.length
  match reserve t stop mem with
  | none => some (.oob, none, t)
  | some t =>
    match enterSegment t.segments ⟨seq, stop⟩ with
    | none => some (.oob, none, t)
    | some segs =>
      let off := (seq - t.curSeq).toNat
      -- a copy past the end of the buffer
      if t.buffSize < off + payload.length then none
      else
        let t' := { t with segments := segs, buff := copyIn t.buff off payload }
        if invoked = false ∧ reassembled t' > reassembled t then
          let (data, t') := deliver t' handler
          some (.ok, some data, t')
        else some (.ok, none, t')

/-- What is sliced off a payload that starts before the current sequence number. -/
def sliced (t : Buffer) (seq : BitVec 32) : Nat :=
  if compareSeqNumbers seq t.curSeq < 0 then (t.curSeq - seq).toNat else 0

/-- The test for calling the handler without a copy: a payload that starts at the current
sequence number and ends before what is stored. -/
def bypasses (t : Buffer) (seq stop : BitVec 32) : Bool :=
  seq = t.curSeq && t.segments.head?.all fun s => compareSeqNumbers stop s.start < 0

/-- `insert_segment`: the return code, what the handler was given, and the buffer.  `none` is
a write outside of the buffer. -/
def insertSegment (t : Buffer) (seq : BitVec 32) (payload : List Byte)
    (handler : List Byte → Nat) (mem : Nat → Byte) :
    Option (HalRet × Option (List Byte) × Buffer) :=
  let stop := seq + ofNat 32 payload.length
  if compareSeqNumbers stop t.curSeq ≤ 0 then some (.ok, none, t)
  else
    let diff := sliced t seq
    let seq := seq + ofNat 32 diff
    let payload := payload.drop diff
    if bypasses t seq stop then
      let processed := handler payload
      let t := { t with curSeq := t.curSeq + ofNat 32 processed }
      if processed = payload.length then some (.ok, some payload, t)
      else
        (store t (seq + ofNat 32 processed) (payload.drop processed) true handler mem).map
          fun r => (r.1, some payload, r.2.2)
    else store t seq payload false handler mem

end NicSw.TcpBuffer
