import Sqex.Proto.Channel

/-! Receipts: the exchange's signature over where it put an entry, the running
head it advanced, and two receipts that cannot both be true. -/
namespace Sqex

def receiptContext : Bytes := "sqex-receipt-v1".toUTF8.toList

def headGenesis : Bytes32 := 0

def advance (C : Crypto) (prevHead entryHash : Bytes32) : Bytes32 :=
  C.sha256 (Bytes32.toBytes prevHead ++ Bytes32.toBytes entryHash)

structure ReceiptTerms where
  place : Place
  seq : UInt64
  posted : UInt64
  entryHash : Bytes32
  head : Bytes32
  deriving DecidableEq

def ReceiptTerms.input (C : Crypto) (t : ReceiptTerms) : Bytes :=
  receiptContext ++ Bytes32.toBytes (C.sha256
    (t.place.toBytes ++ beBytes 8 t.seq.toNat ++ beBytes 8 t.posted.toNat ++
      Bytes32.toBytes t.entryHash ++ Bytes32.toBytes t.head))

def ReceiptTerms.verify (C : Crypto) (t : ReceiptTerms) (sig : Bytes64) : Bool :=
  C.checks t.place.exchange (t.input C) sig

structure Branch where
  posted : UInt64
  entryHash : Bytes32
  head : Bytes32
  receipt : Bytes64
  deriving DecidableEq

structure Equivocation where
  place : Place
  seq : UInt64
  a : Branch
  b : Branch
  deriving DecidableEq

def Branch.terms (b : Branch) (place : Place) (seq : UInt64) : ReceiptTerms :=
  ⟨place, seq, b.posted, b.entryHash, b.head⟩

def Branch.agrees (a b : Branch) : Bool :=
  a.posted == b.posted && a.entryHash == b.entryHash && a.head == b.head

/-- Build one from two receipts for the same position, checking that it is a
contradiction and that both verify. -/
def Equivocation.new (C : Crypto) (place : Place) (seq : UInt64) (a b : Branch) :
    Except Error Equivocation :=
  if a.agrees b then
    .error (.malformed "the two receipts agree, which is not equivocation")
  else if (a.terms place seq).verify C a.receipt = false then
    .error (.malformed "branch a does not verify under the exchange key")
  else if (b.terms place seq).verify C b.receipt = false then
    .error (.malformed "branch b does not verify under the exchange key")
  else .ok ⟨place, seq, a, b⟩

def Branch.encode (b : Branch) : Bytes :=
  beBytes 8 b.posted.toNat ++ Bytes32.toBytes b.entryHash ++ Bytes32.toBytes b.head ++
    Bytes64.toBytes b.receipt

def Equivocation.encode (q : Equivocation) : Bytes :=
  q.place.toBytes ++ beBytes 8 q.seq.toNat ++ q.a.encode ++ q.b.encode

end Sqex
