import KvTier.Model.Payload

/-!
# The bytes of a batch

How `writer_submit_batch` (writer.cpp:289-330) lays the requests of a batch out in the batch buffer,
and what is on the device once its pages are written.
-/

namespace KvTier.Model

open KvTier.Lib

/-- The data of a `put_req`: the records as they are in the caller's memory, or for a stripe part
its slice, `data_len` and the checksum it came with. -/
inductive BatchData where
  | records (recs : List (List UInt8))
  | slice (base : Buf) (dataLen crc : Nat)

/-- What the writer fills in of a `put_req`. -/
structure LaidReq where
  pageNo : Nat
  npages : Nat
  dataLen : Nat
  crc : Nat
deriving DecidableEq, Repr

/-- The bytes of a request. -/
def BatchData.len : BatchData → Nat
  | .records recs => (recs.map List.length).sum
  | .slice _ dataLen _ => dataLen

/-- `memset(buf + off, 0, npages * KV_PAGE_SIZE - len)`. -/
def padPages (buf : Buf) (dst len npages : Nat) : Buf :=
  blit buf (dst + len) (fun _ => 0) (npages * pageSize - len)

/-- One request, to `dst` in the batch buffer and page `absPage` of the device (writer.cpp:294-325).
-/
def layReq (buf : Buf) (dst absPage : Nat) : BatchData → Buf × LaidReq
  | .slice base dataLen crc =>
    let npages := payloadNpages dataLen
    let buf := padPages (blit buf dst base dataLen) dst dataLen npages
    (buf, ⟨absPage, npages, dataLen, crc⟩)
  | .records recs =>
    let (buf, off) := layOutAt buf dst recs
    let npages := payloadNpages off
    let buf := padPages buf dst off npages
    (buf, ⟨absPage, npages, off % 2 ^ 32, pagesCrc (fun i => buf (dst + i)) npages⟩)

/-- The requests of a batch one behind the other. -/
def layReqs (buf : Buf) (dst absPage : Nat) : List BatchData → Buf × List LaidReq
  | [] => (buf, [])
  | r :: rs =>
    let (buf, l) := layReq buf dst absPage r
    let (buf, ls) := layReqs buf (dst + l.npages * pageSize) (absPage + l.npages) rs
    (buf, l :: ls)

/-- A batch, from its start page, in a batch buffer with any contents. -/
def layBatch (buf : Buf) (startPage : Nat) (reqs : List BatchData) : Buf × List LaidReq :=
  layReqs buf 0 startPage reqs

/-- A device after a write of `npages` pages of a buffer. -/
def Disk.writePages (disk : Disk) (dev page : Nat) (buf : Buf) (npages : Nat) : Disk :=
  fun d p =>
    if d = dev ∧ page ≤ p ∧ p < page + npages then
      some fun i => buf ((p - page) * pageSize + i)
    else disk d p

end KvTier.Model
