import Sqex.Exchange.OriginRoster

/-! What a client can do to a copy. A copy's log, roster, directory fields and replicas are
its origin's to change; most operations refuse a copy, or their route carries the request to
the origin, and some do neither. -/
namespace Sqex.Exchange
open Std Runs

/-- A request a route carries to the origin of a copy, and does nothing about here. -/
def Request.carried : Request → Bool
  | .join .. | .leave .. | .post .. | .mute .. | .redact .. | .putKeys .. => true
  | _ => false

def Request.ByClient : Request → Prop
  | .rehome .. | .sweep => False
  | _ => True

namespace Rows
variable {C : Crypto} {h : Host} {channel : Bytes32} {w : Around} {r r' : Rows}
  {es : List Ordered} {s : System} {arg : Bytes} {now : UInt64}

section
variable (C : Crypto) (h : Host) (channel : Bytes32) (r : Rows)

def answered (w : Around) (r : Rows) (req : Request) : Rows :=
  if r.originRow.isSome && req.carried then r else (r.performed C h channel w req).1

def directory : Option (String × String) := r.channel.map fun c => (c.name, c.topic)

structure Frame (r' : Rows) : Prop where
  entry : r'.entry = r.entry
  tip : r'.tip = r.tip
  member : r'.member = r.member
  directory : r'.directory = r.directory
  replica : r'.replica = r.replica

theorem Frame.refl : Frame r r := ⟨rfl, rfl, rfl, rfl, rfl⟩

/-- An action that can be written: its signature verifies at this exchange, it is its device's
next step by the chains here, and the log's next position is free. -/
structure Writable (s : System) (arg : Bytes) (inc head : Bytes32) (next : Int64) : Prop where
  logEnd : r.logEnd = some (inc, head, next)
  free : next ∉ r.entry
  signed : verifyAction C (actionTerms ⟨h.exchange, inc, channel⟩ s arg) s.sig = true
  step : (s.chainSeq, s.prev) = r.chainHead s.actorDevice

def CanWrite (s : System) (arg : Bytes) :
    Prop := ∃ inc head next, Writable C h channel r s arg inc head next

end

theorem verifyAction_input {t : ActionTerms} {sig : Bytes64}
    (hsigned : verifyAction C t sig = true) : ∃ input, t.input C = .ok input := by
  unfold verifyAction at hsigned
  cases hinput : t.input C with
  | error e => simp [hinput] at hsigned
  | ok input => exact ⟨input, rfl⟩

theorem canWrite_iff (now : UInt64) :
    (∃ r' es, r.writeSystem C h channel s arg now = .ok (r', es)) ↔
      CanWrite C h channel r s arg := by
  constructor
  · rintro ⟨r', es, hwrite⟩
    obtain ⟨c, input, e, -, hacted⟩ := writeSystem_ok.mp hwrite
    have hc : r.channel = some c := hacted.appended.channel
    exact ⟨c.incarnation, c.head, c.nextSeq, by simp [logEnd, hc], hacted.appended.free,
      hacted.signed, hacted.step⟩
  · rintro ⟨inc, head, next, hwritable⟩
    obtain ⟨c, hc, htip⟩ := Option.map_eq_some_iff.mp hwritable.logEnd
    obtain ⟨rfl, rfl, rfl⟩ : c.incarnation = inc ∧ c.head = head ∧ c.nextSeq = next := by
      simpa using htip
    obtain ⟨input, hinput⟩ := verifyAction_input hwritable.signed
    have happended : Appended C h.seed (place h channel c) now (link C input)
        (systemRow now s.encode)
        { r with chain := r.chain.insert s.actorDevice ⟨s.chainSeq, link C input⟩ } _ _ c :=
      ⟨hc, hwritable.free, rfl, rfl⟩
    exact ⟨_, _, writeSystem_ok.mpr
      ⟨c, input, _, rfl, hwritable.signed, hinput, hwritable.step, happended⟩⟩

theorem canWrite_congr {r₁ : Rows} (hstill : Still r r₁) (hentry : r₁.entry = r.entry) :
    CanWrite C h channel r₁ s arg ↔ CanWrite C h channel r s arg := by
  have hchain : r₁.chainHead s.actorDevice = r.chainHead s.actorDevice :=
    chainHead_congr hstill.chain s.actorDevice
  constructor
  · rintro ⟨inc, head, next, hwritable⟩
    exact ⟨inc, head, next, hstill.logEnd.symm.trans hwritable.logEnd, hentry ▸ hwritable.free,
      hwritable.signed, hwritable.step.trans hchain⟩
  · rintro ⟨inc, head, next, hwritable⟩
    exact ⟨inc, head, next, hstill.logEnd.trans hwritable.logEnd,
      by rw [hentry]; exact hwritable.free, hwritable.signed, hwritable.step.trans hchain.symm⟩

theorem Frame.not_written {r₁ r₂ : Rows} (hframe : Frame r r')
    (hwrite : r₁.writeSystem C h channel s arg now = .ok (r₂, es)) (hbefore : r₁.entry = r.entry)
    (hafter : r'.entry = r₂.entry) : False := by
  obtain ⟨c, input, e, -, hacted⟩ := writeSystem_ok.mp hwrite
  have hfree : c.nextSeq ∉ r₁.entry := hacted.appended.free
  have hheld : c.nextSeq ∈ r₂.entry := by
    rw [hacted.appended.rows]
    simp
  rw [hbefore, ← hframe.entry, hafter] at hfree
  exact hfree hheld

/-- What no check turns away from a copy, and no route carries off: this is none of it. -/
def Leaves (C : Crypto) (h : Host) (channel : Bytes32) (r : Rows) : Request → Prop
  | .create caller device req =>
    validRetention req.retentionSecs = true → r.roleOf caller = none →
      r.dmClaim C channel caller req.invites = .returning →
      ∀ c ∈ r.channel, req.incarnation = c.incarnation → ∀ action, req.actions = [action] →
        ¬ CanWrite C h channel r (recordOf Event.joined caller caller device action) []
  | .welcome account =>
    ∀ c ∈ r.channel, c.visibility = .pub → r.counts.1 < maxMembers → (r.roleOf account).isSome
  | .setDirectory caller device name topic action =>
    r.isAdmin caller = true → ∀ c ∈ r.channel, c.visibility = .pub →
      ¬ CanWrite C h channel r (recordOf Event.renamed caller caller device action)
        (constitution C .pub c.retentionSecs c.maxEntries (name.take maxName).toString
          (topic.take maxTopic).toString)
  | .close caller => r.channel.isSome → r.isAdmin caller = false
  | .replicate caller device peer action authorise =>
    r.isAdmin caller = true →
      (authorise = true → peer ∉ r.replica → r.replica.size < maxReplicas) →
      ¬ CanWrite C h channel r
        (recordOf (if authorise then Event.replicate else Event.unreplicate) peer caller device
          action) []
  | _ => True

theorem answered_of_carried {req : Request} (hcopy : r.originRow.isSome = true)
    (hcarried : req.carried = true) : r.answered C h channel w req = r := by
  simp [answered, hcopy, hcarried]

theorem answered_of_ok {req : Request} (hnot : req.carried = false)
    (hok : r.perform C h channel w req = .ok (r', es)) : r.answered C h channel w req = r' := by
  simp [answered, hnot, performed, hok]

theorem frame_of_same {req : Request}
    (hsame : ∀ r' es, r.perform C h channel w req = .ok (r', es) → r' = r) :
    Frame r (r.answered C h channel w req) := by
  have heq : r.answered C h channel w req = r := by
    unfold answered performed
    split_ifs
    · rfl
    · cases hok : r.perform C h channel w req with
      | error e => rfl
      | ok p => exact hsame p.1 p.2 hok
  rw [heq]
  exact Frame.refl r

section Operations
variable {caller device account : PubKey} {action : Action}

theorem setDirectory_frame_iff {name topic : String} :
    Frame r (r.answered C h channel w (.setDirectory caller device name topic action)) ↔
      Leaves C h channel r (.setDirectory caller device name topic action) := by
  constructor
  · intro hframe hadmin c hc hpub hcan
    let c' : ChannelRow := { c with
      name := (name.take maxName).toString, topic := (topic.take maxTopic).toString }
    have hset : Still r { r with channel := some c' } := set_still hc ⟨rfl, rfl, rfl⟩
    obtain ⟨r', es, hwrite⟩ :=
      (canWrite_iff w.now).mpr ((canWrite_congr hset rfl).mpr hcan)
    have hok : r.perform C h channel w (.setDirectory caller device name topic action) =
        .ok (r', es) := setDirectory_ok.mpr ⟨c, hc, hpub, hadmin, hwrite⟩
    rw [answered_of_ok rfl hok] at hframe
    exact hframe.not_written hwrite rfl rfl
  · intro hleaves
    refine frame_of_same fun r' es hok => ?_
    obtain ⟨c, hc, hpub, hadmin, hwrite⟩ := setDirectory_ok.mp hok
    let c' : ChannelRow := { c with
      name := (name.take maxName).toString, topic := (topic.take maxTopic).toString }
    have hset : Still r { r with channel := some c' } := set_still hc ⟨rfl, rfl, rfl⟩
    have hcan := (canWrite_congr hset rfl).mp ((canWrite_iff _).mp ⟨r', es, hwrite⟩)
    exact absurd hcan (hleaves hadmin c hc hpub)

theorem close_frame_iff :
    Frame r (r.answered C h channel w (.close caller)) ↔ Leaves C h channel r (.close caller) := by
  constructor
  · intro hframe hsome
    obtain ⟨c, hc⟩ := Option.isSome_iff_exists.mp hsome
    by_contra hadmin
    have hclose : r.close caller = .ok r.destroy :=
      close_ok.mpr ⟨⟨c, hc⟩, by simpa using hadmin, rfl⟩
    have hok : r.perform C h channel w (.close caller) = .ok (r.destroy, []) :=
      quiet_eq_ok.mpr ⟨hclose, rfl⟩
    rw [answered_of_ok rfl hok] at hframe
    have htip := hframe.tip
    simp [tip, destroy, hc] at htip
  · intro hleaves
    refine frame_of_same fun r' es hok => ?_
    obtain ⟨hdone, -⟩ := quiet_eq_ok.mp hok
    obtain ⟨⟨c, hc⟩, hadmin, -⟩ := close_ok.mp hdone
    have hnot := hleaves (by rw [hc]; rfl)
    rw [hadmin] at hnot
    cases hnot

theorem replicate_frame_iff {authorise : Bool} :
    Frame r (r.answered C h channel w (.replicate caller device account action authorise)) ↔
      Leaves C h channel r (.replicate caller device account action authorise) := by
  constructor
  · intro hframe hadmin hroom hcan
    obtain ⟨r₁, es, hwrite⟩ := (canWrite_iff _).mpr hcan
    obtain ⟨inc, head, next, hwritable⟩ := hcan
    obtain ⟨c, hc, -⟩ := Option.map_eq_some_iff.mp hwritable.logEnd
    have hcap : ¬ (authorise = true ∧ account ∉ r.replica ∧ r.replica.size ≥ maxReplicas) := by
      intro hfull
      have hlt := hroom hfull.1 hfull.2.1
      omega
    have hok : r.perform C h channel w (.replicate caller device account action authorise) =
        .ok (_, es) := replicate_ok.mpr ⟨⟨c, hc⟩, hadmin, hcap, r₁, hwrite, rfl⟩
    rw [answered_of_ok rfl hok] at hframe
    exact hframe.not_written hwrite rfl rfl
  · intro hleaves
    refine frame_of_same fun r' es hok => ?_
    obtain ⟨-, hadmin, hcap, r₁, hwrite, -⟩ := replicate_ok.mp hok
    refine absurd ((canWrite_iff _).mp ⟨r₁, es, hwrite⟩) (hleaves hadmin fun hauthorise hnew => ?_)
    by_contra hfull
    exact hcap ⟨hauthorise, hnew, by omega⟩

theorem seat_present {role : Role} (hrole : (r.roleOf account).isSome) :
    (r.seat account role now).member = r.member := by
  obtain ⟨m, hrow, hpresent⟩ := roleOf_isSome_iff.mp hrole
  have hsame : ({ m with present := true } : MemberRow) = m := by
    cases m
    simpa using hpresent.symm
  simp only [seat, hrow, hsame]
  exact insert_of_lookup hrow

theorem welcome_frame_iff :
    Frame r (r.answered C h channel w (.welcome account)) ↔
      Leaves C h channel r (.welcome account) := by
  constructor
  · intro hframe c hc hpub hroom
    have hdone : r.welcome account w.now = .ok { r.seat account .member w.now with
        channel := some { c with emptySince := none } } :=
      welcome_ok.mpr ⟨c, hc, hpub, by omega, rfl⟩
    have hok : r.perform C h channel w (.welcome account) = .ok (_, []) :=
      quiet_eq_ok.mpr ⟨hdone, rfl⟩
    rw [answered_of_ok rfl hok] at hframe
    have hrow := r.seat_member account account .member w.now
    rw [if_pos rfl, hframe.member] at hrow
    refine roleOf_isSome_iff.mpr ⟨_, hrow, ?_⟩
    cases r.member[account]? <;> rfl
  · intro hleaves
    unfold answered performed
    split_ifs
    · exact Frame.refl r
    cases hok : r.perform C h channel w (.welcome account) with
    | error e => exact Frame.refl r
    | ok p =>
      obtain ⟨hdone, -⟩ := quiet_eq_ok.mp hok
      obtain ⟨c, hc, hpub, hroom, hrows⟩ := welcome_ok.mp hdone
      rw [← hrows]
      have hpresent := hleaves c hc hpub (by omega)
      exact ⟨rfl, by simp [tip, hc], seat_present hpresent, by simp [directory, hc], rfl⟩

theorem create_frame_iff {req : Create}
    (hnot : r.founds C channel (.create caller device req) = false) :
    Frame r (r.answered C h channel w (.create caller device req)) ↔
      Leaves C h channel r (.create caller device req) := by
  have hseat : Still r (r.seat caller .admin w.now) := still_of_same rfl rfl rfl rfl
  constructor
  · intro hframe hretention hrole hclaim c hc hinc action hactions hcan
    obtain ⟨r', es, hwrite⟩ := (canWrite_iff _).mpr ((canWrite_congr hseat rfl).mpr hcan)
    have hmade : r.channel = some c := hc
    have hok : r.perform C h channel w (.create caller device req) = .ok (r', es) := by
      refine bind_eq_ok.mpr ⟨(), refuseIf_eq_ok.mpr (by simp [hretention]), ?_⟩
      simp only [hmade, hrole, hclaim, comeBack, hinc, hactions, ne_eq, not_true_eq_false,
        if_false, Option.isSome_none, Bool.false_eq_true]
      exact hwrite
    rw [answered_of_ok rfl hok] at hframe
    exact hframe.not_written hwrite rfl rfl
  · intro hleaves
    refine frame_of_same fun r' es hok => ?_
    obtain ⟨hretention, c, hc, hsame | ⟨hrole, hclaim, hback⟩⟩ := create_ok hnot hok
    · exact (Prod.mk.inj hsame).1.symm
    · dsimp only [comeBack] at hback
      by_cases hinc : req.incarnation = c.incarnation
      · rw [if_neg (not_not.mpr hinc)] at hback
        split at hback
        · rename_i action hactions
          have hcan := (canWrite_congr hseat rfl).mp ((canWrite_iff _).mp ⟨r', es, hback⟩)
          exact absurd hcan (hleaves hretention hrole hclaim c hc hinc action hactions)
        · cases hback
      · rw [if_pos hinc] at hback
        exact (Prod.mk.inj (Except.ok.inj hback)).1.symm

end Operations

theorem frame_iff {req : Request} (hcopy : r.originRow.isSome = true) (hclient : req.ByClient)
    (hnot : r.founds C channel req = false) :
    Frame r (r.answered C h channel w req) ↔ Leaves C h channel r req := by
  have hguarded : ¬ r.originRow = none := by
    intro hnone
    rw [hnone] at hcopy
    cases hcopy
  have hheld : ∀ {req : Request}, req.carried = true → Leaves C h channel r req →
      (Frame r (r.answered C h channel w req) ↔ Leaves C h channel r req) := by
    intro req hcarried hleaves
    rw [answered_of_carried hcopy hcarried]
    exact iff_of_true (Frame.refl r) hleaves
  cases req with
  | create caller device req => exact create_frame_iff hnot
  | welcome account => exact welcome_frame_iff
  | setDirectory caller device name topic action => exact setDirectory_frame_iff
  | close caller => exact close_frame_iff
  | replicate caller device peer action authorise => exact replicate_frame_iff
  | retain caller device retentionSecs maxEntries action =>
    refine iff_of_true (frame_of_same fun r' es hok => ?_) trivial
    exact absurd (retain_ok.mp hok).2.1 hguarded
  | invite caller device account role action =>
    refine iff_of_true (frame_of_same fun r' es hok => ?_) trivial
    cases invite_ok.mp hok with
    | inl hblocked => exact hblocked.2.1.symm
    | inr hinvited => exact absurd hinvited.2.1 hguarded
  | remove caller device account action =>
    refine iff_of_true (frame_of_same fun r' es hok => ?_) trivial
    exact absurd (remove_ok.mp hok).1 hguarded
  | signal caller =>
    refine iff_of_true (frame_of_same fun r' es hok => ?_) trivial
    obtain ⟨hdone, -⟩ := quiet_eq_ok.mp hok
    obtain ⟨-, -, hsame⟩ := map_eq_ok.mp hdone
    exact hsame.symm
  | succeed account successor issued sig =>
    refine iff_of_true (frame_of_same fun r' es hok => ?_) trivial
    cases succeedAccount_ok.mp hok with
    | inl hstays => exact hstays.2.1.symm
    | inr hmoved =>
      obtain ⟨role, -, hnone, -⟩ := hmoved
      exact absurd hnone hguarded
  | rehome caller device subject domain action away minAway | sweep => exact absurd hclient id
  | _ => exact hheld rfl trivial

end Rows

/-- What happens to a channel's rows: a request is answered, or the exchange writes them
itself, from a pull, a tombstone, an expiry or a rehome. -/
inductive CopyAct where
  | asked (w : Around) (req : Request)
  | written (rows : Rows)

namespace CopyAct
variable {C : Crypto} {h : Host} {channel : Bytes32}

section
variable (C : Crypto) (h : Host) (channel : Bytes32) (r : Rows)

def step : CopyAct → Rows
  | .asked w req => r.answered C h channel w req
  | .written rows => rows

def Framed : CopyAct → Prop
  | .asked w req =>
    r.originRow.isSome = true → req.ByClient → Rows.Frame r (r.answered C h channel w req)
  | .written _ => True

/-- A client's request of a copy is none of those nothing turns away. -/
def Spared : CopyAct → Prop
  | .asked _ req => r.originRow.isSome = true → req.ByClient → Rows.Leaves C h channel r req
  | .written _ => True

def FoundsNothing : CopyAct → Prop
  | .asked _ req => r.originRow.isSome = true → r.founds C channel req = false
  | .written _ => True

end

/-- Whatever happens to a channel's rows, every request of a client leaves a copy's log, head,
roster, directory fields and replicas as they were in exactly those runs in which none is a rename,
a close, a change of the replicas, a return or a welcome that its checks let through, a create anew
aside. -/
theorem copy_frame_iff {r : Rows} {acts : List CopyAct}
    (hfounds : Each (FoundsNothing C channel) (step C h channel) r acts) :
    Each (Framed C h channel) (step C h channel) r acts ↔
      Each (Spared C h channel) (step C h channel) r acts := by
  refine each_congr (I := fun _ => True) (fun _ _ _ _ _ => trivial) (fun r act _ hnot => ?_)
    trivial hfounds
  cases act with
  | written rows => exact Iff.rfl
  | asked w req =>
    constructor
    · exact fun hframed hcopy hclient =>
        (Rows.frame_iff hcopy hclient (hnot hcopy)).mp (hframed hcopy hclient)
    · exact fun hspared hcopy hclient =>
        (Rows.frame_iff hcopy hclient (hnot hcopy)).mpr (hspared hcopy hclient)

section Example

/-- Exchange 1's copy of the front room of exchange 2, founded by 7. -/
def copied : Rows :=
  { Rows.frontRoom 0 "lobby" (some 7) 0 with
    replicated := some
      { origin := 2, windowSecs := 0, derivable := true, equivocation := none, shaped := true,
        originDomain := "" } }

def joinRemove : List CopyAct :=
  [.asked (.clear 10) (.join 5 6 (firstAction Event.joined 5 5)),
    .asked (.clear 11) (.remove 7 (Crypto.toy.publicKey 8) 7 (firstAction Event.removed 7 7))]

theorem copied_kept :
    Each (Framed .toy ⟨1, none, 50000⟩ 0) (step .toy ⟨1, none, 50000⟩ 0) copied joinRemove := by
  have hfounds : Each (FoundsNothing .toy 0) (step .toy ⟨1, none, 50000⟩ 0) copied joinRemove :=
    ⟨fun _ => rfl, fun _ => rfl, trivial⟩
  exact (copy_frame_iff hfounds).mpr ⟨fun _ _ => trivial, fun _ _ => trivial, trivial⟩

/-- The founder authorises a replica at the copy, which orders an entry of its own. -/
theorem copy_writes : ¬ ∀ (C : Crypto) (h : Host) (channel : Bytes32) (r : Rows)
    (acts : List CopyAct), Each (Framed C h channel) (step C h channel) r acts := by
  intro hall
  have hframe := (hall .toy ⟨1, none, 50000⟩ 0 copied [.asked (.clear 10)
    (.replicate 7 (Crypto.toy.publicKey 8) 9 (firstAction Event.replicate 9 7) true)]).1 rfl trivial
  exact absurd hframe.tip (by decide +kernel)

end Example

end CopyAct
end Sqex.Exchange
