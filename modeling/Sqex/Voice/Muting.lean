import Mathlib.Data.Rat.Floor
import Sqex.Voice.Sender

/-! A muted microphone. What it hears decides nothing of what it sends, which is digital silence;
and muted or not it counts every slot and leaves the line without a frame for no longer than the
keepalive. -/
namespace Sqex.Voice
open Runs Microphone
variable {F γ σ ε κ : Type*} {A : Floats F} {M : Ear σ γ F}

section Offers
variable {s : Sender γ F} {samples x y : σ} {e : σ → κ → Except ε Bytes × κ} {k : κ}

theorem sinceSent_fits (s : Sender γ F) : (s.sinceSent + 1).toNat = s.sinceSent.toNat + 1 := by
  have hbound := s.keepalive.toNat_lt
  cases s.counted with
  | inl hzero => simp [hzero]
  | inr hlt =>
    rw [UInt32.lt_iff_toNat_lt] at hlt
    rw [UInt32.toNat_add, UInt32.toNat_one]
    omega

theorem offer_speaking (h : s.speaking M samples = true) :
    s.offer A M samples e k =
      ((e samples k).1.map fun packet => some ⟨s.timestamp, .audio packet⟩,
        s.next A M samples 0 (.inl rfl), (e samples k).2) := by
  rw [Sender.offer, if_pos h]

theorem offer_describing (h : s.speaking M samples = false)
    (hdue : s.wasSpeaking = true ∨ s.keepalive ≤ s.sinceSent + 1) :
    s.offer A M samples e k =
      (.ok (some ⟨s.timestamp, .comfort (s.describes A M samples)⟩),
        s.next A M samples 0 (.inl rfl), k) := by
  rw [Sender.offer, if_neg (by simp [h]), dif_pos hdue]

theorem offer_quiet (h : s.speaking M samples = false)
    (hdue : ¬ (s.wasSpeaking = true ∨ s.keepalive ≤ s.sinceSent + 1)) :
    ∃ counted, s.offer A M samples e k =
      (.ok none, s.next A M samples (s.sinceSent + 1) counted, k) := by
  rw [Sender.offer, if_neg (by simp [h]), dif_neg hdue]
  exact ⟨_, rfl⟩

theorem offer_next (A : Floats F) (M : Ear σ γ F) (s : Sender γ F) (samples : σ)
    (encode : σ → κ → Except ε Bytes × κ) (k : κ) :
    ∃ sinceSent counted, (s.offer A M samples encode k).2.1 =
      s.next A M samples sinceSent counted := by
  by_cases hspeaking : s.speaking M samples = true
  · exact ⟨_, _, by rw [offer_speaking hspeaking]⟩
  · rw [Bool.not_eq_true] at hspeaking
    by_cases hdue : s.wasSpeaking = true ∨ s.keepalive ≤ s.sinceSent + 1
    · exact ⟨_, _, by rw [offer_describing hspeaking hdue]⟩
    · obtain ⟨counted, hquiet⟩ := offer_quiet hspeaking hdue (A := A) (e := encode) (k := k)
      exact ⟨_, counted, by rw [hquiet]⟩

theorem speaking_muted (h : s.muted = true) (M : Ear σ γ F) (samples : σ) :
    s.speaking M samples = false := by
  simp [Sender.speaking, h]

theorem describes_muted (h : s.muted = true) : s.describes A M samples = .silence := by
  rw [Sender.describes, if_pos h, fromParts_zero]

end Offers

inductive Act.Alike : Act σ ε κ → Act σ ε κ → Prop
  | offer (x y : σ) (encode : σ → κ → Except ε Bytes × κ) :
      Alike (.offer x encode) (.offer y encode)
  | setMuted (muted : Bool) : Alike (.setMuted muted) (.setMuted muted)

/-- Whether a slot comes to nothing, or to a description of digital silence. -/
def Silent (slot : Except ε (Option Frame)) : Prop :=
  slot = .ok none ∨ ∃ timestamp, slot = .ok (some ⟨timestamp, .comfort .silence⟩)

section Muted
variable {s : Sender γ F} {x y : σ} {encode : σ → κ → Except ε Bytes × κ}

theorem next_muted (h : s.muted = true) (A : Floats F) (M : Ear σ γ F) (gate : γ) (x y : σ)
    (sinceSent : UInt32) (counted : sinceSent = 0 ∨ sinceSent < s.keepalive) :
    Sender.next A M { s with gate } y sinceSent counted =
      { s.next A M x sinceSent counted with gate := Sender.fedGate M { s with gate } y } := by
  have hother : ({ s with gate } : Sender γ F).muted = true := h
  refine Sender.ext rfl ?_ rfl rfl rfl ?_ rfl rfl
  · simp [Sender.next, speaking_muted h, speaking_muted hother]
  · exact (Sender.tracked_muted A M _ y hother).trans (Sender.tracked_muted A M s x h).symm

/-- A slot of a muted sender: silent, whatever the sound and whatever the gate made of the last,
and nothing is encoded. -/
theorem offer_muted (h : s.muted = true) (A : Floats F) (M : Ear σ γ F) (x : σ)
    (encode : σ → κ → Except ε Bytes × κ) (k : κ) :
    ∃ slot sender, s.offer A M x encode k = (slot, sender, k) ∧ sender.muted = true ∧
      Silent slot ∧ ∀ y gate, ∃ gate', Sender.offer A M { s with gate } y encode k =
        (slot, { sender with gate := gate' }, k) := by
  by_cases hdue : s.wasSpeaking = true ∨ s.keepalive ≤ s.sinceSent + 1
  · have hnow := offer_describing (speaking_muted h M x) hdue (A := A) (e := encode) (k := k)
    rw [describes_muted h] at hnow
    refine ⟨_, _, hnow, h, .inr ⟨_, rfl⟩, fun y gate =>
      ⟨Sender.fedGate M { s with gate } y, ?_⟩⟩
    have hother : ({ s with gate } : Sender γ F).muted = true := h
    rw [offer_describing (speaking_muted hother M y) hdue, describes_muted hother,
      next_muted h A M gate x y]
  · obtain ⟨counted, hnow⟩ := offer_quiet (speaking_muted h M x) hdue (A := A) (e := encode)
      (k := k)
    refine ⟨_, _, hnow, h, .inl rfl, fun y gate => ?_⟩
    have hother : ({ s with gate } : Sender γ F).muted = true := h
    obtain ⟨counted', hthen⟩ := offer_quiet (speaking_muted hother M y) hdue (A := A)
      (e := encode) (k := k)
    exact ⟨_, by rw [hthen, next_muted h A M gate x y]⟩

variable {m m' : Microphone γ F κ} {i j : Act σ ε κ} {k : κ}

structure Hushed (k : κ) (m m' : Microphone γ F κ) : Prop where
  muted : m.sender.muted = true
  encoder : m.encoder = k
  same : ∃ gate, m' = ⟨{ m.sender with gate }, k⟩

theorem Hushed.refl (h : m.sender.muted = true) : Hushed m.encoder m m :=
  ⟨h, rfl, m.sender.gate, rfl⟩

theorem Hushed.step (h : Hushed k m m') (hlike : i ≠ .setMuted false ∧ i.Alike j) :
    Hushed k (m.step A M i) (m'.step A M j) ∧ m.out A M i = m'.out A M j := by
  obtain ⟨hmuted, hencoder, gate, rfl⟩ := h
  obtain ⟨hstays, hlike⟩ := hlike
  subst hencoder
  cases hlike with
  | offer x y encode =>
    obtain ⟨slot, sender, hoffer, hmuted', -, hsame⟩ := offer_muted hmuted A M x encode m.encoder
    obtain ⟨gate', hother⟩ := hsame y gate
    simp only [Microphone.step, Microphone.out, hoffer, hother]
    exact ⟨⟨hmuted', rfl, gate', rfl⟩, trivial⟩
  | setMuted muted =>
    have hmute : muted = true := by simpa using hstays
    subst hmute
    have hagain : ∀ s : Sender γ F, s.muted = true → s.setMuted true = s := by
      intro s hs
      rw [Sender.setMuted, dif_neg (by simp [hs])]
      exact Sender.ext rfl rfl rfl rfl rfl rfl rfl hs.symm
    simp only [Microphone.step, Microphone.out]
    rw [hagain _ hmuted, hagain { m.sender with gate } hmuted]
    exact ⟨⟨hmuted, rfl, gate, rfl⟩, trivial⟩

theorem Act.Alike.refl (i : Act σ ε κ) : i.Alike i := by
  cases i with
  | offer x encode => exact .offer x x encode
  | setMuted muted => exact .setMuted muted

theorem out_muted (h : m.sender.muted = true) (i : Act σ ε κ) :
    ∀ slot ∈ m.out A M i, Silent slot := by
  cases i with
  | offer x encode =>
    obtain ⟨slot, sender, hoffer, -, hsilent, -⟩ := offer_muted h A M x encode m.encoder
    simpa [Microphone.out, hoffer] using hsilent
  | setMuted muted => simp [Microphone.out]

theorem muted_stretch {is : List (Act σ ε κ)} (h : m.sender.muted = true)
    (his : ∀ i ∈ is, i ≠ .setMuted false) :
    (∀ slot ∈ m.slots A M is, Silent slot) ∧ (run (step A M) m is).encoder = m.encoder := by
  have hkeep : ∀ (m' : Microphone γ F κ) (i : Act σ ε κ), Hushed m.encoder m' m' →
      i ≠ .setMuted false → Hushed m.encoder (m'.step A M i) (m'.step A M i) :=
    fun m' i hm' hi => (hm'.step ⟨hi, Act.Alike.refl i⟩).1
  have hstays : Each (fun _ i => i ≠ .setMuted false) (step A M) m is :=
    each_of_mem (fun i hi _ => his i hi) m
  refine ⟨forall_emitted_iff.mpr ?_, (hstays.run hkeep (.refl h)).encoder⟩
  exact hstays.imp_of hkeep (fun m' i hm' _ => out_muted hm'.muted i) (.refl h)

end Muted

def offered : List (Act σ ε κ) → List σ
  | [] => []
  | .offer samples _ :: is => samples :: offered is
  | .setMuted _ :: is => offered is

def feed (M : Ear σ γ F) (gate : γ) (xs : List σ) : γ :=
  xs.foldl (fun g x => (M.isSpeech g x).2) gate

def quiets (M : Ear σ γ F) (gate : γ) : List σ → List σ
  | [] => []
  | x :: xs =>
    let rest := quiets M (M.isSpeech gate x).2 xs
    if (M.isSpeech gate x).1 then rest else x :: rest

def track (A : Floats F) (M : Ear σ γ F) (xs : List σ) : Option (F × F) :=
  xs.foldl (fun room x => some (Sender.smoothed A M x room)) none

theorem quiets_append_one (M : Ear σ γ F) (gate : γ) (xs : List σ) (x : σ) :
    quiets M gate (xs ++ [x]) = quiets M gate xs ++
      if (M.isSpeech (feed M gate xs) x).1 then [] else [x] := by
  induction xs generalizing gate with
  | nil => rfl
  | cons y xs ih =>
    simp only [List.cons_append, quiets, ih]
    split <;> rfl

section Unmuted
variable {m : Microphone γ F κ} {gate : γ} {xs : List σ}

structure Hearing (A : Floats F) (M : Ear σ γ F) (gate : γ) (xs : List σ)
    (m : Microphone γ F κ) : Prop where
  unmuted : m.sender.muted = false
  fed : m.sender.enabled = true → m.sender.gate = feed M gate xs
  room : m.sender.enabled = true → m.sender.room = track A M (quiets M gate xs)

theorem Hearing.unmute (h : m.sender.muted = true) :
    Hearing A M m.sender.gate [] (m.step A M (.setMuted false : Act σ ε κ)) := by
  have hnow : (m.sender.setMuted false) =
      { m.sender with muted := false, hushed := fun hno => by cases hno } := by
    rw [Sender.setMuted, dif_neg (by simp)]
  simp only [Microphone.step, hnow]
  exact ⟨rfl, fun _ => rfl, fun _ => m.sender.hushed h⟩

theorem Hearing.offer (h : Hearing A M gate xs m) (x : σ)
    (encode : σ → κ → Except ε Bytes × κ) :
    Hearing A M gate (xs ++ [x]) (m.step A M (.offer x encode)) := by
  obtain ⟨sinceSent, counted, hnext⟩ := offer_next A M m.sender x encode m.encoder
  have hsender : (m.step A M (.offer x encode)).sender =
      m.sender.next A M x sinceSent counted := hnext
  refine ⟨?_, fun hon => ?_, fun hon => ?_⟩
  · rw [hsender]
    exact h.unmuted
  · rw [hsender] at hon ⊢
    have henabled : m.sender.enabled = true := hon
    simp only [Sender.next, Sender.fedGate, henabled, Bool.or_true, if_true, h.fed henabled, feed,
      List.foldl_append, List.foldl_cons, List.foldl_nil]
  · rw [hsender] at hon ⊢
    have henabled : m.sender.enabled = true := hon
    have hspeaking : m.sender.speaking M x = (M.isSpeech (feed M gate xs) x).1 := by
      simp [Sender.speaking, h.unmuted, henabled, h.fed henabled]
    simp only [Sender.next, Sender.tracked, h.unmuted, Bool.or_false, hspeaking,
      quiets_append_one, h.room henabled]
    split
    · simp
    · simp [track]

theorem Hearing.stretch (h : Hearing A M gate xs m) {is : List (Act σ ε κ)}
    (his : ∀ i ∈ is, i ≠ .setMuted true) :
    Hearing A M gate (xs ++ offered is) (run (step A M) m is) := by
  induction is generalizing m xs with
  | nil => simpa [offered] using h
  | cons i is ih =>
    have hrest : ∀ j ∈ is, j ≠ .setMuted true := fun j hj => his j (by simp [hj])
    cases i with
    | offer x encode =>
      have hlater := ih (h.offer x encode) hrest
      rwa [List.append_assoc] at hlater
    | setMuted muted =>
      have hfalse : muted = false := by simpa using his (.setMuted muted) (by simp)
      subst hfalse
      have hsame : m.step A M (.setMuted false : Act σ ε κ) = m := by
        simp only [Microphone.step]
        rw [Sender.setMuted, dif_neg (by simp)]
        have hsender : { m.sender with muted := false, hushed := fun hno => by cases hno } =
            m.sender := Sender.ext rfl rfl rfl rfl rfl rfl rfl h.unmuted.symm
        rw [hsender]
      rw [run_cons, hsame]
      exact ih h hrest

theorem Hearing.describes (h : Hearing A M gate xs m) {x : σ}
    {encode : σ → κ → Except ε Bytes × κ} {timestamp : UInt32} {c : Comfort}
    (hsent : m.out A M (.offer x encode) = [.ok (some ⟨timestamp, .comfort c⟩)]) :
    ∃ room, track A M (quiets M gate (xs ++ [x])) = some room ∧
      c = Comfort.fromParts A room.1 (A.toByte room.2) := by
  have hslot : (m.sender.offer A M x encode m.encoder).1 =
      .ok (some ⟨timestamp, .comfort c⟩) := by simpa [Microphone.out] using hsent
  by_cases hspeaking : m.sender.speaking M x = true
  · rw [offer_speaking hspeaking] at hslot
    cases hpacket : (encode x m.encoder).1 <;> simp [hpacket, Except.map] at hslot
  · rw [Bool.not_eq_true] at hspeaking
    have henabled : m.sender.enabled = true := by
      by_contra hoff
      simp [Sender.speaking, h.unmuted, hoff] at hspeaking
    have htracked : m.sender.tracked A M x = some (Sender.smoothed A M x m.sender.room) := by
      simp [Sender.tracked, hspeaking, h.unmuted]
    have hroom := (h.offer x encode).room
    obtain ⟨sinceSent, counted, hnext⟩ := offer_next A M m.sender x encode m.encoder
    have hsender : (m.step A M (.offer x encode)).sender =
        m.sender.next A M x sinceSent counted := hnext
    rw [hsender] at hroom
    have hlast : some (Sender.smoothed A M x m.sender.room) =
        track A M (quiets M gate (xs ++ [x])) := htracked ▸ hroom henabled
    refine ⟨_, hlast.symm, ?_⟩
    have hdescribes : m.sender.describes A M x = Comfort.fromParts A
        (Sender.smoothed A M x m.sender.room).1
        (A.toByte (Sender.smoothed A M x m.sender.room).2) := by
      simp [Sender.describes, h.unmuted, htracked]
    rw [← hdescribes]
    by_cases hdue : m.sender.wasSpeaking = true ∨ m.sender.keepalive ≤ m.sender.sinceSent + 1
    · rw [offer_describing hspeaking hdue] at hslot
      have hframe := Option.some.inj (Except.ok.inj hslot)
      exact (Body.comfort.inj (congrArg Frame.body hframe)).symm
    · obtain ⟨counted', hquiet⟩ := offer_quiet hspeaking hdue (A := A) (e := encode)
        (k := m.encoder)
      simp [hquiet] at hslot

end Unmuted

section Slots
variable {m : Microphone γ F κ} {is : List (Act σ ε κ)}

theorem setMuted_same (s : Sender γ F) (muted : Bool) :
    (s.setMuted muted).timestamp = s.timestamp ∧ (s.setMuted muted).sinceSent = s.sinceSent ∧
      (s.setMuted muted).keepalive = s.keepalive := by
  unfold Sender.setMuted
  split <;> exact ⟨rfl, rfl, rfl⟩

theorem stamp_succ (t : UInt32) (n : Nat) : t + 1 + UInt32.ofNat n = t + UInt32.ofNat (n + 1) := by
  rw [UInt32.ofNat_add, UInt32.add_assoc, UInt32.add_comm 1]
  rfl

theorem offer_timestamp (m : Microphone γ F κ) (x : σ) (encode : σ → κ → Except ε Bytes × κ) :
    (m.step A M (.offer x encode)).sender.timestamp = m.sender.timestamp + 1 := by
  obtain ⟨sinceSent, counted, hnext⟩ := offer_next A M m.sender x encode m.encoder
  exact congrArg Sender.timestamp hnext

theorem run_timestamp (A : Floats F) (M : Ear σ γ F) (m : Microphone γ F κ)
    (is : List (Act σ ε κ)) : (run (step A M) m is).sender.timestamp =
      m.sender.timestamp + UInt32.ofNat (offered is).length := by
  induction is generalizing m with
  | nil => simp [offered]
  | cons i is ih =>
    rw [run_cons, ih]
    cases i with
    | offer x encode =>
      rw [offer_timestamp, offered, List.length_cons, stamp_succ]
    | setMuted muted =>
      have hsame : (m.step A M (.setMuted muted : Act σ ε κ)).sender.timestamp =
          m.sender.timestamp := (setMuted_same m.sender muted).1
      rw [hsame, offered]

theorem offer_stamps {s : Sender γ F} {x : σ} {encode : σ → κ → Except ε Bytes × κ} {k : κ}
    {frame : Frame} (h : (s.offer A M x encode k).1 = .ok (some frame)) :
    frame.timestamp = s.timestamp := by
  by_cases hspeaking : s.speaking M x = true
  · rw [offer_speaking hspeaking] at h
    cases hpacket : (encode x k).1 with
    | error e => simp [hpacket, Except.map] at h
    | ok packet =>
      simp only [hpacket, Except.map] at h
      rw [← Option.some.inj (Except.ok.inj h)]
  · rw [Bool.not_eq_true] at hspeaking
    by_cases hdue : s.wasSpeaking = true ∨ s.keepalive ≤ s.sinceSent + 1
    · rw [offer_describing hspeaking hdue] at h
      rw [← Option.some.inj (Except.ok.inj h)]
    · obtain ⟨counted, hquiet⟩ := offer_quiet hspeaking hdue (A := A) (e := encode) (k := k)
      simp [hquiet] at h

theorem slot_timestamp {i : Nat} {frame : Frame}
    (h : (m.slots A M is)[i]? = some (.ok (some frame))) :
    frame.timestamp = m.sender.timestamp + UInt32.ofNat i := by
  induction is generalizing m i with
  | nil => simp [Microphone.slots, emitted] at h
  | cons act is ih =>
    cases act with
    | offer x encode =>
      have hslots : m.slots A M (.offer x encode :: is) =
          (m.sender.offer A M x encode m.encoder).1 ::
            (m.step A M (.offer x encode)).slots A M is := rfl
      rw [hslots] at h
      cases i with
      | zero =>
        rw [List.getElem?_cons_zero] at h
        simpa using offer_stamps (Option.some.inj h)
      | succ i =>
        rw [List.getElem?_cons_succ] at h
        rw [ih h, offer_timestamp, stamp_succ]
    | setMuted muted =>
      have hsame : (m.step A M (.setMuted muted : Act σ ε κ)).sender.timestamp =
          m.sender.timestamp := (setMuted_same m.sender muted).1
      rw [← hsame]
      exact ih h

theorem quiet_slot {s : Sender γ F} {x : σ} {encode : σ → κ → Except ε Bytes × κ} {k : κ}
    (h : (s.offer A M x encode k).1 = .ok none) :
    (s.offer A M x encode k).2.1.sinceSent.toNat = s.sinceSent.toNat + 1 ∧
      (s.offer A M x encode k).2.1.keepalive = s.keepalive ∧
      s.sinceSent.toNat + 1 < s.keepalive.toNat := by
  by_cases hspeaking : s.speaking M x = true
  · rw [offer_speaking hspeaking] at h
    cases hpacket : (encode x k).1 <;> simp [hpacket, Except.map] at h
  · rw [Bool.not_eq_true] at hspeaking
    by_cases hdue : s.wasSpeaking = true ∨ s.keepalive ≤ s.sinceSent + 1
    · rw [offer_describing hspeaking hdue] at h
      simp at h
    · obtain ⟨counted, hquiet⟩ := offer_quiet hspeaking hdue (A := A) (e := encode) (k := k)
      have hearly : s.sinceSent + 1 < s.keepalive :=
        UInt32.not_le.mp fun hlate => hdue (.inr hlate)
      rw [UInt32.lt_iff_toNat_lt, sinceSent_fits] at hearly
      rw [hquiet]
      exact ⟨sinceSent_fits s, rfl, hearly⟩

theorem quiet_start {n : Nat} {after : List (Except ε (Option Frame))}
    (h : m.slots A M is = List.replicate n (.ok none) ++ after) :
    n = 0 ∨ m.sender.sinceSent.toNat + n < m.sender.keepalive.toNat := by
  induction is generalizing m n with
  | nil =>
    cases n with
    | zero => exact .inl rfl
    | succ n => simp [Microphone.slots, emitted, List.replicate_succ] at h
  | cons act is ih =>
    cases act with
    | offer x encode =>
      cases n with
      | zero => exact .inl rfl
      | succ n =>
        have hslots : (m.sender.offer A M x encode m.encoder).1 ::
            (m.step A M (.offer x encode)).slots A M is =
            .ok none :: (List.replicate n (.ok none) ++ after) := h
        obtain ⟨hfirst, hrest⟩ := List.cons.inj hslots
        obtain ⟨hcount, hsame, hearly⟩ := quiet_slot hfirst
        right
        cases ih hrest with
        | inl hzero => omega
        | inr hlt =>
          have hnext : (m.step A M (.offer x encode)).sender =
              (m.sender.offer A M x encode m.encoder).2.1 := rfl
          rw [hnext, hcount, hsame] at hlt
          omega
    | setMuted muted =>
      obtain ⟨-, hcount, hsame⟩ := setMuted_same m.sender muted
      have hlater := ih (m := m.step A M (.setMuted muted)) h
      have hnext : (m.step A M (.setMuted muted : Act σ ε κ)).sender =
          m.sender.setMuted muted := rfl
      rwa [hnext, hcount, hsame] at hlater

theorem quiet_bounded {before after : List (Except ε (Option Frame))} {n : Nat}
    (h : m.slots A M is = before ++ List.replicate n (.ok none) ++ after) :
    n ≤ m.sender.keepalive.toNat := by
  rw [List.append_assoc] at h
  induction is generalizing m before with
  | nil =>
    have hnil : List.replicate n (.ok none : Except ε (Option Frame)) = [] := by
      have hempty := (List.append_eq_nil_iff.mp h.symm).2
      exact (List.append_eq_nil_iff.mp hempty).1
    have hlength := congrArg List.length hnil
    rw [List.length_replicate] at hlength
    exact hlength ▸ Nat.zero_le _
  | cons act is ih =>
    have hkeepalive : (m.step A M act).sender.keepalive = m.sender.keepalive := by
      cases act with
      | offer x encode =>
        obtain ⟨sinceSent, counted, hnext⟩ := offer_next A M m.sender x encode m.encoder
        have hsender : (m.step A M (.offer x encode)).sender =
            m.sender.next A M x sinceSent counted := hnext
        rw [hsender]
        rfl
      | setMuted muted => exact (setMuted_same m.sender muted).2.2
    cases before with
    | nil =>
      cases quiet_start h with
      | inl hzero | inr hlt => omega
    | cons slot before =>
      rw [← hkeepalive]
      cases act with
      | offer x encode =>
        have hslots : (m.sender.offer A M x encode m.encoder).1 ::
            (m.step A M (.offer x encode)).slots A M is =
            slot :: (before ++ (List.replicate n (.ok none) ++ after)) := h
        exact ih (List.cons.inj hslots).2
      | setMuted muted => exact @ih _ (slot :: before) h

end Slots

/-- While it is muted a microphone sends the same whatever it hears, silence, and encodes nothing;
once it is unmuted it describes what it has heard since; each slot counts one; and no more slots in
a row than the keepalive come to nothing. -/
theorem muted_microphone (A : Floats F) (M : Ear σ γ F) (m : Microphone γ F κ) :
    (m.sender.muted = true → ∀ is js : List (Act σ ε κ), (∀ i ∈ is, i ≠ .setMuted false) →
      List.Forall₂ Act.Alike is js → m.slots A M is = m.slots A M js ∧
        (∀ slot ∈ m.slots A M is, Silent slot) ∧
        (run (step A M) m is).encoder = m.encoder ∧ (run (step A M) m js).encoder = m.encoder) ∧
    (m.sender.muted = true → ∀ is : List (Act σ ε κ), (∀ i ∈ is, i ≠ .setMuted true) →
      ∀ x encode timestamp c, (run (step A M) m (.setMuted false :: is)).out A M
        (.offer x encode : Act σ ε κ) = [.ok (some ⟨timestamp, .comfort c⟩)] →
      ∃ room, track A M (quiets M m.sender.gate (offered is ++ [x])) = some room ∧
        c = Comfort.fromParts A room.1 (A.toByte room.2)) ∧
    (∀ is : List (Act σ ε κ), (run (step A M) m is).sender.timestamp =
        m.sender.timestamp + UInt32.ofNat (offered is).length ∧
      ∀ i frame, (m.slots A M is)[i]? = some (.ok (some frame)) →
        frame.timestamp = m.sender.timestamp + UInt32.ofNat i) ∧
    ∀ (is : List (Act σ ε κ)) (before after : List (Except ε (Option Frame))) (n : Nat),
      m.slots A M is = before ++ List.replicate n (.ok none) ++ after →
      n ≤ m.sender.keepalive.toNat := by
  refine ⟨fun hmuted is js hstays halike => ?_,
    fun hmuted is hstays x encode timestamp c hsent => ?_,
    fun is => ⟨run_timestamp A M m is, fun i frame hframe => slot_timestamp hframe⟩,
    fun is before after n hquiet => quiet_bounded hquiet⟩
  · have hkeep : ∀ (m₁ m₂ : Microphone γ F κ) (i j : Act σ ε κ), Hushed m.encoder m₁ m₂ →
        i ≠ .setMuted false ∧ i.Alike j → Hushed m.encoder (m₁.step A M i) (m₂.step A M j) ∧
          m₁.out A M i = m₂.out A M j := fun m₁ m₂ i j h hlike => h.step hlike
    have hlike : List.Forall₂ (fun i j : Act σ ε κ => i ≠ .setMuted false ∧ i.Alike j) is js :=
      (List.forall₂_and_left is js).mpr ⟨hstays, halike⟩
    obtain ⟨hend, hslots⟩ := emitted_alike hkeep (Hushed.refl hmuted) hlike
    obtain ⟨hsilent, hencoder⟩ := muted_stretch hmuted hstays (A := A) (M := M)
    obtain ⟨-, -, gate, hsame⟩ := hend
    exact ⟨hslots, hsilent, hencoder, by rw [hsame]⟩
  · have hunmuted : Hearing A M m.sender.gate []
        (m.step A M (.setMuted false : Act σ ε κ)) := Hearing.unmute hmuted
    exact (hunmuted.stretch hstays).describes hsent

def ratFloats : Floats ℚ where
  zero := 0
  quarter := 1 / 4
  max := 2 ^ 128
  floorMin := 1 / 2000
  floorMax := 3 / 100
  opening := 16 / 5
  closing := 9 / 5
  add x y := x + y
  sub x y := x - y
  mul x y := x * y
  min x y := if x ≤ y then x else y
  clamp x low high := if x < low then low else if high < x then high else x
  lt x y := decide (x < y)
  le x y := decide (x ≤ y)
  ofByte b := b.toNat
  toByte x := UInt8.ofNat x.floor.toNat
  halfDecibels _ := 100
  le_zero := by decide +kernel

def counting : Microphone (Gate ℚ) ℚ Nat := ⟨.new (Gate.new ratFloats 15) 2 true, 0⟩

def loud (level : ℚ) : Act ℚ Unit Nat := .offer level fun _ encoded => (.ok [], encoded + 1)

/-- Shouting into a muted microphone, and keeping quiet; and what it says of the room, unmuted. -/
theorem muted_microphone_shouting :
    let M := Gate.ear ratFloats id fun _ => 0
    let m := counting.step ratFloats M (.setMuted true : Act ℚ Unit Nat)
    (m.slots ratFloats M [loud 1, loud 1] = m.slots ratFloats M [loud 0, loud 0] ∧
      (∀ slot ∈ m.slots ratFloats M [loud 1, loud 1], Silent slot) ∧
      (run (step ratFloats M) m [loud 1, loud 1]).encoder = 0 ∧
      (run (step ratFloats M) m [loud 0, loud 0]).encoder = 0) ∧
    (run (step ratFloats M) m [.setMuted false, loud 0, loud 0]).out ratFloats M
        (loud (1 / 1000)) = [.ok (some ⟨2, .comfort ⟨100, 0⟩⟩)] ∧
      ∃ room, track ratFloats M (quiets M m.sender.gate [0, 0, 1 / 1000]) = some room ∧
        (⟨100, 0⟩ : Comfort) = Comfort.fromParts ratFloats room.1 (ratFloats.toByte room.2) := by
  let M := Gate.ear ratFloats id fun _ => 0
  let m := counting.step ratFloats M (.setMuted true : Act ℚ Unit Nat)
  obtain ⟨hmuted, hunmuted, -, -⟩ := muted_microphone (ε := Unit) (κ := Nat) ratFloats M m
  have hsent : (run (step ratFloats M) m [.setMuted false, loud 0, loud 0]).out ratFloats M
      (loud (1 / 1000)) = [.ok (some ⟨2, .comfort ⟨100, 0⟩⟩)] := by decide +kernel
  exact ⟨hmuted rfl [loud 1, loud 1] [loud 0, loud 0] (by simp [loud])
      (.cons (.offer 1 0 _) (.cons (.offer 1 0 _) .nil)),
    hsent, hunmuted rfl [loud 0, loud 0] (by simp [loud]) (1 / 1000) _ 2 ⟨100, 0⟩ hsent⟩

end Sqex.Voice
