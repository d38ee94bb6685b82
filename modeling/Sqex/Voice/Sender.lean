import Sqex.Lib.Traces
import Sqex.Voice.Jitter

/-! The sending half of the media layer: a gate that tells speech from the room, and a sender that
puts a frame on the wire for some slots, describes the room for others and keeps quiet in the rest.
What sound measures is a parameter. -/
namespace Sqex.Voice
open Runs

structure Frame where
  timestamp : UInt32
  body : Body
  deriving DecidableEq

/-- Single-precision numbers, by what is done with them here. -/
structure Floats (F : Type*) where
  zero : F
  quarter : F
  max : F
  /-- The gate's `FLOOR_MIN`, `FLOOR_MAX`, `OPEN` and `CLOSE`. -/
  floorMin : F
  floorMax : F
  opening : F
  closing : F
  add : F → F → F
  sub : F → F → F
  mul : F → F → F
  min : F → F → F
  clamp : F → F → F → F
  lt : F → F → Bool
  le : F → F → Bool
  ofByte : UInt8 → F
  toByte : F → UInt8
  /-- Half-decibels below full scale, rounded and clamped to 0..=254. -/
  halfDecibels : F → UInt8
  le_zero : le zero zero = true

variable {F γ σ ε κ : Type*}

def Comfort.silence : Comfort := ⟨255, 0⟩

def Comfort.fromParts (A : Floats F) (rms : F) (tilt : UInt8) : Comfort :=
  ⟨if A.le rms A.zero then 255 else A.halfDecibels rms, tilt⟩

theorem fromParts_zero (A : Floats F) : Comfort.fromParts A A.zero 0 = .silence := by
  rw [Comfort.fromParts, if_pos A.le_zero, Comfort.silence]

namespace Gate

def window : Nat := 100

end Gate

structure Gate (F : Type*) where
  /-- The quietest frame of the window that just finished. -/
  floor : F
  runningMin : F
  seen : Nat
  /-- Frames still to send after the last one that was speech. -/
  hangover : Nat
  hangoverFrames : Nat
  seen_lt : seen < Gate.window
  hangover_le : hangover ≤ hangoverFrames

namespace Gate

def new (A : Floats F) (hangoverFrames : Nat) : Gate F where
  floor := A.floorMin
  runningMin := A.max
  seen := 0
  hangover := 0
  hangoverFrames
  seen_lt := by decide
  hangover_le := Nat.zero_le _

def follow (A : Floats F) (g : Gate F) (level : F) : Gate F :=
  let quietest := A.min g.runningMin level
  if h : g.seen + 1 < window then
    { g with runningMin := quietest, seen := g.seen + 1, seen_lt := h }
  else
    { g with
      floor := A.clamp quietest A.floorMin A.floorMax
      runningMin := A.max
      seen := 0
      seen_lt := by decide }

def isSpeech (A : Floats F) (g : Gate F) (level : F) : Bool × Gate F :=
  let g := g.follow A level
  let threshold := if 0 < g.hangover then A.closing else A.opening
  if A.lt (A.mul g.floor threshold) level then
    (true, { g with hangover := g.hangoverFrames, hangover_le := Nat.le_refl _ })
  else if 0 < g.hangover then
    (true, { g with
      hangover := g.hangover - 1
      hangover_le := Nat.le_trans (Nat.sub_le _ 1) g.hangover_le })
  else (false, g)

end Gate

/-- What a sender has of the sound of a slot: its level, its tilt, and whether a gate takes it for
speech. -/
structure Ear (σ γ F : Type*) where
  rms : σ → F
  tilt : σ → UInt8
  isSpeech : γ → σ → Bool × γ

def Gate.ear (A : Floats F) (rms : σ → F) (tilt : σ → UInt8) : Ear σ (Gate F) F :=
  ⟨rms, tilt, fun g samples => g.isSpeech A (rms samples)⟩

/-- What decides what to send. A muted one remembers no room, and one that has kept quiet has for
less than the keepalive. -/
@[ext]
structure Sender (γ F : Type*) where
  timestamp : UInt32
  wasSpeaking : Bool
  /-- Frames since anything was last put on the wire. -/
  sinceSent : UInt32
  keepalive : UInt32
  gate : γ
  /-- The level and tilt of the quiet frames seen lately, smoothed. -/
  room : Option (F × F)
  enabled : Bool
  muted : Bool
  hushed : muted = true → room = none
  counted : sinceSent = 0 ∨ sinceSent < keepalive

namespace Sender

def new (gate : γ) (keepalive : UInt32) (enabled : Bool) : Sender γ F where
  timestamp := 0
  wasSpeaking := true
  sinceSent := 0
  keepalive
  gate
  room := none
  enabled
  muted := false
  hushed _ := rfl
  counted := .inl rfl

def setMuted (s : Sender γ F) (muted : Bool) : Sender γ F :=
  if h : muted = true ∧ s.muted = false then { s with room := none, muted, hushed := fun _ => rfl }
  else
    { s with
      muted
      hushed := fun hmuted => s.hushed (by simpa [hmuted] using h) }

variable (A : Floats F) (M : Ear σ γ F) (s : Sender γ F) (samples : σ)

/-- Whether a slot is spoken in: the gate is asked only where silence is left out. -/
def speaking : Bool := !s.muted && (!s.enabled || (M.isSpeech s.gate samples).1)

/-- The gate after a slot. A muted sender feeds it too, and throws its answer away. -/
def fedGate : γ := if s.muted || s.enabled then (M.isSpeech s.gate samples).2 else s.gate

def measured : F × F := (M.rms samples, A.ofByte (M.tilt samples))

def smoothed (room : Option (F × F)) : F × F :=
  let now := measured A M samples
  match room with
  | some was =>
    (A.add was.1 (A.mul A.quarter (A.sub now.1 was.1)),
      A.add was.2 (A.mul A.quarter (A.sub now.2 was.2)))
  | none => now

def tracked : Option (F × F) :=
  if s.speaking M samples || s.muted then s.room else some (smoothed A M samples s.room)

theorem tracked_muted (h : s.muted = true) : s.tracked A M samples = none := by
  rw [tracked, h, Bool.or_true, if_pos rfl, s.hushed h]

def next (sinceSent : UInt32) (counted : sinceSent = 0 ∨ sinceSent < s.keepalive) : Sender γ F :=
  { s with
    timestamp := s.timestamp + 1
    wasSpeaking := s.speaking M samples
    sinceSent
    gate := s.fedGate M samples
    room := s.tracked A M samples
    hushed := s.tracked_muted A M samples
    counted }

def describes : Comfort :=
  if s.muted then Comfort.fromParts A A.zero 0
  else
    let room := (s.tracked A M samples).getD (measured A M samples)
    Comfort.fromParts A room.1 (A.toByte room.2)

/-- Offer the sound of a slot: what to send, if anything, the sender a slot on, and the encoder
after it, which is called only for what is spoken. The timestamp wraps. -/
def offer (encode : σ → κ → Except ε Bytes × κ) (k : κ) :
    Except ε (Option Frame) × Sender γ F × κ :=
  if s.speaking M samples then
    let (packet, k) := encode samples k
    (packet.map fun packet => some ⟨s.timestamp, .audio packet⟩, s.next A M samples 0 (.inl rfl), k)
  else if h : s.wasSpeaking = true ∨ s.keepalive ≤ s.sinceSent + 1 then
    (.ok (some ⟨s.timestamp, .comfort (s.describes A M samples)⟩),
      s.next A M samples 0 (.inl rfl), k)
  else
    (.ok none, s.next A M samples (s.sinceSent + 1)
      (.inr (UInt32.not_le.mp fun hdue => h (.inr hdue))), k)

end Sender

/-- What is done with a sender: a slot offered, with what would encode it, and muting. -/
inductive Act (σ ε κ : Type*) where
  | offer (samples : σ) (encode : σ → κ → Except ε Bytes × κ)
  | setMuted (muted : Bool)

structure Microphone (γ F κ : Type*) where
  sender : Sender γ F
  encoder : κ

namespace Microphone
variable (A : Floats F) (M : Ear σ γ F)

def step (m : Microphone γ F κ) : Act σ ε κ → Microphone γ F κ
  | .offer samples encode =>
    let (_, sender, encoder) := m.sender.offer A M samples encode m.encoder
    ⟨sender, encoder⟩
  | .setMuted muted => { m with sender := m.sender.setMuted muted }

def out (m : Microphone γ F κ) : Act σ ε κ → List (Except ε (Option Frame))
  | .offer samples encode => [(m.sender.offer A M samples encode m.encoder).1]
  | .setMuted _ => []

def slots (m : Microphone γ F κ) (acts : List (Act σ ε κ)) : List (Except ε (Option Frame)) :=
  emitted (out A M) (step A M) m acts

end Microphone
end Sqex.Voice
