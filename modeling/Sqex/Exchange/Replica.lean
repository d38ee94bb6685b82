import Sqex.Exchange.Channels
import Sqex.Lib.Runs

/-! Taking a batch from an origin: what a copy checks of each entry, and what it
stores of those that pass. -/
namespace Sqex.Exchange
open Std Runs

inductive Refused where
  | forged | unattributed | repudiated | diverged | unclaimed
  deriving DecidableEq

structure Took where
  stored : UInt64
  refused : List (UInt64 × Refused)
  /-- The origin was caught saying two things about one position. -/
  equivocated : Bool
  deriving DecidableEq

/-- What an origin answered a pull with, as far as taking it reads. -/
structure Pulled where
  incarnation : Bytes32
  windowSecs : UInt32
  entries : List Entry

section
variable (C : Crypto) (src : Source) (t : Taking) (e : Entry) (place : Place)

def receiptTerms (e : Entry) (stamp : Receipted) : ReceiptTerms where
  place := place
  seq := e.seq
  posted := e.posted
  entryHash := stamp.entryHash
  head := stamp.head

def placeOf (places : List Place) (e : Entry) (stamp : Receipted) : Option Place :=
  places.find? fun place => (receiptTerms place e stamp).verify C stamp.receipt

/-- Whether an entry contradicts a receipt already held for its position. -/
def conflicting (r : Rows) (place : Place) (e : Entry) (stamp : Receipted) : Option Equivocation :=
  match r.stampAt e.seq with
  | none => none
  | some held =>
    let branch : Branch := ⟨e.posted, stamp.entryHash, stamp.head, stamp.receipt⟩
    if held.agrees branch then none
    else (Equivocation.new C place e.seq held branch).toOption

def signedAt (e : Entry) : Bool :=
  if e.body.isEmpty && e.bodyHash != C.sha256 [] then
    verifyEntryHashed C (e.terms place) e.bodyHash e.sig
  else verifyEntry C (e.terms place) e.sig

def entryRefused (e : Entry) (credentials : PubKey → Option PubKey) : Option Refused :=
  if e.kind ≠ kindMember then none
  else if signedAt C place e = false then some .forged
  else if e.device ≠ e.account then
    match credentials e.device with
    | some account => if account = e.account then none else some .unattributed
    | none => some .unattributed
  else none

def lastHead (r : Rows) : Option (UInt64 × Bytes32) :=
  if r.highest = 0 then none
  else (r.stampAt r.highest).map fun b => (r.highest, b.head)

def entryHashOf (e : Entry) : Bytes32 :=
  link C ((e.terms place).inputHashed C e.bodyHash)

/-- The loop's state: the rows, the head before the next entry, and what came of
the batch so far. -/
structure Taking where
  rows : Rows
  held : Option (UInt64 × Bytes32)
  took : Took

/-- What a pull is checked against: the exchange itself, the places an origin
may have signed at, and who vouches for a device. -/
structure Source where
  self : PubKey
  places : List Place
  credentials : PubKey → Option PubKey

def Taking.refuse (why : Refused) : Taking :=
  { t with took := { t.took with refused := t.took.refused ++ [(e.seq, why)] } }

def diverges (held : Option (UInt64 × Bytes32)) (e : Entry) (stamp : Receipted) : Bool :=
  match held with
  | some (seq, prev) => seq + 1 == e.seq && advance C prev stamp.entryHash != stamp.head
  | none => false

/-- One turn of the loop. A contradiction ended it: nothing follows one. -/
def takeNext : Taking :=
  if t.took.equivocated then t
  else match e.stamp with
  | none => t.refuse e .unclaimed
  | some stamp =>
    match placeOf C src.places e stamp with
    | none => t.refuse e .repudiated
    | some place =>
      match conflicting C t.rows place e stamp with
      | some proof =>
        { t with
          rows := t.rows.recordEquivocation proof.encode
          took := { t.took with equivocated := true } }
      | none =>
        match entryRefused C place e src.credentials with
        | some why => t.refuse e why
        | none =>
          if diverges C t.held e stamp then t.refuse e .diverged
          else match t.rows.storePulled C src.self e stamp with
          | (rows, true) =>
            { rows, held := some (e.seq, stamp.head),
              took := { t.took with stored := t.took.stored + 1 } }
          | (rows, false) => { t with rows, held := some (e.seq, stamp.head) }

def placesOf (origin : PubKey) (predecessors : List PubKey) (incarnation channel : Bytes32) :
    List Place :=
  (origin :: predecessors).map fun key => ⟨key, incarnation, channel⟩

/-- Verify a batch under the origin's keys and store what survives, starting
from the rows the channel was adopted with. -/
def takeBatch (adopted : Rows) (entries : List Entry) : Taking :=
  run (takeNext C src) ⟨adopted, lastHead adopted, ⟨0, [], false⟩⟩ entries

def takeUnder (store : Channels) (origin : PubKey) (predecessors : List PubKey) (channel : Bytes32)
    (pulled : Pulled) (credentials : PubKey → Option PubKey) (now : UInt64) : Channels × Took :=
  match (store.rows channel).adopt pulled.incarnation origin pulled.windowSecs now with
  | .error _ => (store, ⟨0, [], false⟩)
  | .ok adopted =>
    let src : Source :=
      ⟨store.exchange, placesOf origin predecessors pulled.incarnation channel, credentials⟩
    let t := takeBatch C src adopted pulled.entries
    (store.put channel t.rows, t.took)

structure Accepts (stamp : Receipted) (place : Place) : Prop where
  going : t.took.equivocated = false
  stamped : e.stamp = some stamp
  receipted : placeOf C src.places e stamp = some place
  consistent : conflicting C t.rows place e stamp = none
  attributed : entryRefused C place e src.credentials = none
  follows : diverges C t.held e stamp = false

end

theorem takeNext_accepts {C : Crypto} {src : Source} {t : Taking} {e : Entry}
    {stamp : Receipted} {place : Place} (h : Accepts C src t e stamp place) :
    (takeNext C src t e).rows = (t.rows.storePulled C src.self e stamp).1 := by
  simp only [takeNext, h.going, h.stamped, h.receipted, h.consistent, h.attributed, h.follows]
  cases hstore : t.rows.storePulled C src.self e stamp with
  | mk rows new => cases new <;> rfl

theorem takeNext_refuses {C : Crypto} {src : Source} {t : Taking} {e : Entry}
    (h : ∀ stamp place, ¬ Accepts C src t e stamp place) :
    (takeNext C src t e).rows.entry = t.rows.entry ∧
      (takeNext C src t e).rows.channel = t.rows.channel ∧
      (takeNext C src t e).rows.originRow = t.rows.originRow ∧
      (takeNext C src t e).took.stored = t.took.stored := by
  unfold takeNext
  cases hgoing : t.took.equivocated with
  | true => exact ⟨rfl, rfl, rfl, rfl⟩
  | false =>
    cases hstamp : e.stamp with
    | none => exact ⟨rfl, rfl, rfl, rfl⟩
    | some stamp =>
      cases hplace : placeOf C src.places e stamp with
      | none => simp [hplace, Taking.refuse]
      | some place =>
        cases hconflict : conflicting C t.rows place e stamp with
        | some proof =>
          simp [hplace, hconflict, Rows.recordEquivocation, Rows.originRow, Function.comp_def]
        | none =>
          cases hrefused : entryRefused C place e src.credentials with
          | some why => simp [hplace, hconflict, hrefused, Taking.refuse]
          | none =>
            cases hfollows : diverges C t.held e stamp with
            | true => simp [hplace, hconflict, hrefused, hfollows, Taking.refuse]
            | false =>
              exact absurd ⟨hgoing, hstamp, hplace, hconflict, hrefused, hfollows⟩
                (h stamp place)

end Sqex.Exchange
