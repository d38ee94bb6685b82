import Sqex.Lib.Offsets
import Sqex.Proto.SystemBody

/-! An entry with its receipt, as it is written out and read back. -/
namespace Sqex
open Wire

def maxEntryBody : Nat := 32 * 1024

def readNat (n : Nat) : Reading Nat := beNat <$> take n
def readByte : Reading UInt8 := (fun b => b.headD 0) <$> take 1
def readU64 : Reading UInt64 := UInt64.ofNat <$> readNat 8
def readBytes32 : Reading Bytes32 := BitVec.ofNat 256 <$> readNat 32
def readBytes64 : Reading Bytes64 := BitVec.ofNat 512 <$> readNat 64

theorem reads_nat (n b : Nat) : Reads (readNat n) (beBytes n b) (beNat (beBytes n b)) :=
  (reads_take (beBytes_length n b)).map beNat

theorem reads_byte (b : UInt8) : Reads readByte [b] b :=
  (reads_take (n := 1) rfl).map fun b : Bytes => b.headD 0

theorem reads_u64 (n : UInt64) : Reads readU64 (beBytes 8 n.toNat) n := by
  have hread := (reads_nat 8 n.toNat).map UInt64.ofNat
  rwa [UInt64.ofNat_beBytes] at hread

theorem reads_bytes32 (b : Bytes32) : Reads readBytes32 (Bytes32.toBytes b) b := by
  have hread := (reads_nat 32 b.toNat).map (BitVec.ofNat 256)
  rwa [show beBytes 32 b.toNat = Bytes32.toBytes b from rfl, Bytes32.ofNat_toBytes] at hread

theorem reads_bytes64 (b : Bytes64) : Reads readBytes64 (Bytes64.toBytes b) b := by
  have hread := (reads_nat 64 b.toNat).map (BitVec.ofNat 512)
  rwa [show beBytes 64 b.toNat = Bytes64.toBytes b from rfl, Bytes64.ofNat_toBytes] at hread

/-! How much of what they are read from they take up. -/

theorem spans_nat (n : Nat) : Spans (readNat n) n := (spans_take n).map beNat
theorem spans_u64 : Spans readU64 8 := (spans_nat 8).map UInt64.ofNat
theorem spans_bytes64 : Spans readBytes64 64 := (spans_nat 64).map (BitVec.ofNat 512)

namespace Receipted

def write (r : Receipted) : Bytes :=
  Bytes32.toBytes r.entryHash ++ (Bytes32.toBytes r.head ++ Bytes64.toBytes r.receipt)

end Receipted

namespace Entry

def writeReceipted (e : Entry) : Bytes :=
  beBytes 8 e.seq.toNat ++ ([e.kind] ++ (Bytes32.toBytes e.account ++
    (Bytes32.toBytes e.device ++ (beBytes 8 e.posted.toNat ++ (beBytes 4 e.expiresAfter.toNat ++
    (beBytes 4 e.epoch.toNat ++ (beBytes 8 e.msgSeq.toNat ++ (beBytes 8 e.chainSeq.toNat ++
    (Bytes32.toBytes e.prev ++ (Bytes32.toBytes e.bodyHash ++ (Bytes64.toBytes e.sig ++
    (((e.stamp.map Receipted.write).getD []) ++
    (beBytes 4 e.body.length ++ e.body)))))))))))))

end Entry
end Sqex
