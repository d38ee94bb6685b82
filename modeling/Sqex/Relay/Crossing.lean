import Sqex.Relay.Lasting

/-! A call across two exchanges: the caller's and the callee's, the frames in flight between
them, in order each way, and what each end was told last. -/
namespace Sqex.Relay
open Std Runs RelayInner

/-- A call as its caller last placed it: what was offered, the bridge it is, and the answer. -/
structure Asked where
  eph : Bytes32
  bridge : Option Bridge
  ack : CallAck
  deriving DecidableEq

structure Opened where
  eph : Bytes32
  bridge : Option Bridge
  ack : OpenAck
  deriving DecidableEq

/-- The caller's exchange `x`, the callee's `y`, and the frames on the way to each. Nothing
reads what the ends were told and which identifiers were drawn. -/
structure Crossing where
  x : RelayInner
  y : RelayInner
  toX : List Control
  toY : List Control
  calls : PubKey × String → Option Asked
  opens : PubKey × PubKey → Option Opened
  drawn : List Bridge

def sentTo (peer : PubKey) (sent : Sent) : List Control :=
  (sent.filter fun p => p.1 = peer).map Prod.snd

/-- What happens at either exchange, or on the way between. -/
inductive Crossed where
  | poll (caller : PubKey) (target : String) (eph : Bytes32) (now : UInt64)
  | insert (caller : PubKey) (target : String) (eph : Bytes32) (now : UInt64) (route : Route)
      (bridge : Bridge)
  | opened (device caller : PubKey) (eph : Bytes32) (account : PubKey) (now : UInt64)
      (draws : List UInt64)
  | toX (x : Heard)
  | toY (x : Heard)
  | sweepX (o : IterOrder (Bridge × BridgeRec)) (now : UInt64)
  | sweepY (o : IterOrder (Bridge × BridgeRec)) (now : UInt64)

namespace Crossing

def start (linksX linksY : PubKey → Bool) : Crossing where
  x := .empty linksX
  y := .empty linksY
  toX := []
  toY := []
  calls _ := none
  opens _ := none
  drawn := []

def step (keyX keyY : PubKey) (s : Crossing) : Crossed → Crossing
  | .poll caller target eph now =>
    let (x, sent, ack) := s.x.pollCall caller target eph now
    { s with
      x
      toY := s.toY ++ sentTo keyY sent
      calls := Function.update s.calls (caller, target)
        (ack.map fun ack => ⟨eph, s.x.callerIndex (caller, target), ack⟩) }
  | .insert caller target eph now route bridge =>
    let (x, sent, ack) := s.x.insertCall caller target eph now route bridge
    { s with
      x
      toY := s.toY ++ sentTo keyY sent
      calls := Function.update s.calls (caller, target)
        (some ⟨eph, x.callerIndex (caller, target), ack⟩)
      drawn := bridge :: s.drawn }
  | .opened device caller eph account now draws =>
    let (y, sent, ack) := s.y.tryAnswer device caller eph account now draws
    { s with
      y
      toX := s.toX ++ sentTo keyX sent
      opens := Function.update s.opens (device, caller)
        (ack.map fun ack => ⟨eph, s.y.calleeIndex (caller, account), ack⟩) }
  | .toX h =>
    match s.toX with
    | [] => s
    | c :: rest =>
      let (x, sent) := s.x.onControl h keyY c
      { s with x, toX := rest, toY := s.toY ++ sentTo keyY sent }
  | .toY h =>
    match s.toY with
    | [] => s
    | c :: rest =>
      let (y, sent) := s.y.onControl h keyX c
      { s with y, toY := rest, toX := s.toX ++ sentTo keyX sent }
  | .sweepX o now =>
    let (x, sent) := s.x.expire o now
    { s with x, toY := s.toY ++ sentTo keyY sent }
  | .sweepY o now =>
    let (y, sent) := s.y.expire o now
    { s with y, toX := s.toX ++ sentTo keyX sent }

/-- Whenever both ends are told of one bridge that it is established, each was given what
the other offered last. -/
def InTune (s : Crossing) : Prop :=
  ∀ (called : PubKey × String) (opened : PubKey × PubKey) (a : Asked) (o : Opened) (k : Bridge),
    s.calls called = some a → a.ack.state = .established → a.bridge = some k →
    s.opens opened = some o → o.ack.state = .established → o.bridge = some k →
    a.ack.peerEphemeral = o.eph ∧ o.ack.peerEphemeral = a.eph

/-- A device that answered opens again with what it answered with; and an identifier is drawn
once. -/
def OffersAgain (s : Crossing) : Crossed → Prop
  | .opened device caller eph account _ _ =>
    ∀ p ∈ s.y.indexed (s.y.calleeIndex (caller, account)), p.2.callee = some device →
      eph = p.2.calleeEph
  | .insert _ _ _ _ _ bridge => bridge ∉ s.drawn
  | _ => True

instance (s : Crossing) : (c : Crossed) → Decidable (OffersAgain s c)
  | .opened device caller eph account _ _ => inferInstanceAs (Decidable
    (∀ p ∈ s.y.indexed (s.y.calleeIndex (caller, account)), p.2.callee = some device →
      eph = p.2.calleeEph))
  | .insert _ _ _ _ _ bridge => inferInstanceAs (Decidable (bridge ∉ s.drawn))
  | .poll .. | .toX _ | .toY _ | .sweepX .. | .sweepY .. => inferInstanceAs (Decidable True)

end Crossing
end Sqex.Relay
