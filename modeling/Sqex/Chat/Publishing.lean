import Sqex.Exchange.FeedTips

/-! A call that publishes to its account's own feed: what it asks, what it signs and what it
makes of each answer, beside an exchange that takes any copy of a request at any time and the
account's other devices. -/
namespace Sqex.Publishing
open Feed Feeds
variable {C : Crypto}

/-- Where a feed has got to, as the exchange tells it. Its seams are always none. -/
structure Headed where
  found : Bool
  oldest : UInt64
  newest : UInt64
  headInput : Bytes32
  posts : UInt32
  bytes : UInt64
  retentionSecs : UInt32
  maxPosts : UInt32
  now : UInt64
  listed : Bool
  deriving DecidableEq

section
variable (C : Crypto) (c : Caller) (w : World)

def Headed.none (now : UInt64) : Headed where
  found := false
  oldest := 0
  newest := 0
  headInput := 0
  posts := 0
  bytes := 0
  retentionSecs := 0
  maxPosts := 0
  now := now
  listed := false

def headRow (s : Feeds) (subject : PubKey) (now : UInt64) : Headed :=
  match s.feed[subject]? with
  | none => .none now
  | some h => {
      found := true
      oldest := UInt64.ofNat h.oldest
      newest := UInt64.ofNat h.newest
      headInput := h.headInput
      posts := UInt32.ofNat h.posts
      bytes := UInt64.ofNat h.bytes
      retentionSecs := UInt32.ofNat h.retentionSecs
      maxPosts := UInt32.ofNat h.maxPosts
      now := now
      listed := h.listed }

def head (s : Feeds) (subject : PubKey) (now : UInt64) (blocked : Bool) : Feeds × Headed :=
  if blocked then (s, .none now)
  else
    let s := after (expire now) s
    (s, headRow s subject now)

structure Appended where
  serial : UInt64
  received : UInt64
  headInput : Bytes32
  now : UInt64
  deriving DecidableEq

inductive ChatError where
  | protocol (text : String)
  | refused (e : FeedError)
  /-- No answer, or one from before the feed: the link, the limits, a move. -/
  | other
  deriving DecidableEq

/-- Whether a refusal says this serial is not the next one. -/
def stale : FeedError → Bool
  | .stale | .brokenChain => true
  | _ => false

structure Caller where
  seed : Bytes32
  me : PubKey
  body : Bytes

def sign (C : Crypto) (seed : Bytes32) (account : PubKey) (serial : UInt64) (prev : Bytes32)
    (issuedAt : UInt64) (expiresAfter : UInt32) (body : Bytes) : Feed.Post :=
  let p : Feed.Post := {
    account, device := C.publicKey seed, serial, prev, issuedAt, expiresAfter, flags := 0
    bodyHash := C.sha256 body, body, signature := 0 }
  { p with signature := C.sign seed (p.inputHashed C p.bodyHash) }

inductive Phase where
  | asking (attempt : Nat)
  | posting (attempt : Nat)
  | done (result : Except ChatError Appended)
  deriving DecidableEq

structure World where
  feeds : Feeds
  phase : Phase
  /-- The posts the call asked to append, any copy of which may yet arrive. -/
  sent : List Feed.Post
  /-- Heads read since the call last asked for one. -/
  heads : List Headed
  answers : List (Except FeedError Appended)
  taken : List Feed.Post

def publishAt (attempt : Nat) (h : Headed) (issuedAt : UInt64) : World :=
  if maxBody < c.body.length then
    { w with phase := .done (.error (.protocol
        s!"a post is at most {maxBody} bytes, and this is {c.body.length}")) }
  else
    let serial := if h.found then h.newest + 1 else 1
    let prev := if h.found then h.headInput else genesis
    { w with
      phase := .posting attempt
      sent := w.sent ++ [sign C c.seed c.me serial prev issuedAt 0 c.body]
      answers := [] }

/-- What the call makes of an answer: the first refusal for the serial is taken for a race. -/
def hear (attempt : Nat) : Except FeedError Appended → World
  | .ok a => { w with phase := .done (.ok a) }
  | .error e =>
    if attempt = 0 ∧ stale e then { w with phase := .asking (attempt + 1), heads := [] }
    else { w with phase := .done (.error (.refused e)) }

/-- A copy of one of the call's requests reaches the exchange. -/
def take (now : UInt64) (n : Nat) (p : Feed.Post) : World :=
  let answer := ((append C c.me p now).result (.clean w.feeds)).map fun r =>
    { serial := UInt64.ofNat r.1, received := now, headInput := r.2, now : Appended }
  { w with
    feeds := after (append C c.me p now) w.feeds
    answers := if n + 1 = w.sent.length then w.answers ++ [answer] else w.answers
    taken := if answer.isOk then w.taken ++ [p] else w.taken }

inductive Act where
  | other (account : PubKey) (post : Feed.Post)
  /-- A copy of the `n`-th request to append arrives. -/
  | arrive (n : Nat)
  /-- A copy of a request for the head arrives. -/
  | asked (blocked : Bool)
  /-- The call hears one of the heads, and signs at its own time. -/
  | headed (n : Nat) (issuedAt : UInt64)
  | told (n : Nat)
  /-- The call hears that there will be none, or a refusal from before the feed. -/
  | failed

def step : UInt64 × Act → World
  | (now, .other account p) => { w with feeds := after (append C account p now) w.feeds }
  | (now, .arrive n) =>
    match w.sent[n]? with
    | some p => take C c w now n p
    | none => w
  | (now, .asked blocked) =>
    let (feeds, h) := head w.feeds c.me now blocked
    { w with feeds, heads := w.heads ++ [h] }
  | (_, .headed n issuedAt) =>
    match w.phase, w.heads[n]? with
    | .asking attempt, some h => publishAt C c w attempt h issuedAt
    | _, _ => w
  | (_, .told n) =>
    match w.phase, w.answers[n]? with
    | .posting attempt, some answer => hear w attempt answer
    | _, _ => w
  | (_, .failed) =>
    match w.phase with
    | .done _ => w
    | _ => { w with phase := .done (.error .other) }

/-- The two calls: one reads the head first, the other has one in hand. -/
inductive Entry where
  | publish
  | publishFrom (head : Headed) (issuedAt : UInt64)

def begin (s : Feeds) : Entry → World
  | .publish => ⟨s, .asking 0, [], [], [], []⟩
  | .publishFrom h issuedAt => publishAt C c ⟨s, .asking 0, [], [], [], []⟩ 0 h issuedAt

/-- A post the feed holds as it arrived, over the post before it: no row of the serial before
has another link, and the first post has none. -/
structure Standing (rows : List PostRow) (p : Feed.Post) : Prop where
  held : ∃ received, arriving p received ∈ rows
  linked : ∀ r ∈ rows, r.serial + 1 = p.serial.toNat → p.prev = r.post.link C
  first : p.serial = 1 → p.prev = genesis

structure Once : Prop where
  one : w.taken.length ≤ 1
  returned : ∀ a, w.phase = .done (.ok a) →
    ∃ p ∈ w.taken, a.serial = p.serial ∧ a.headInput = p.link C ∧
      Standing C (w.feeds.rows c.me) p

def Passed (h : HeadRow) (p : Feed.Post) : Prop :=
  p.serial.toNat ≤ h.newest ∨ p.serial.toNat = h.newest + 1 ∧ p.prev ≠ h.headInput

instance (h : HeadRow) (p : Feed.Post) : Decidable (Passed h p) :=
  inferInstanceAs (Decidable (_ ∨ _))

/-- A refusal read as a lost race is one: of the post refused no copy was taken or can be. -/
def LostRace : Prop :=
  w.taken = [] ∧ ∀ p ∈ w.sent, Passed (w.feeds.headOf c.me) p

instance (c : Caller) (w : World) : Decidable (LostRace c w) :=
  inferInstanceAs (Decidable (_ ∧ ∀ _ ∈ _, _))

/-- What the steps of a run keep to: a refusal of the first post for its serial is heard only
where another device won; no device's post evicts the call's own; and no read is at the last
time a column holds, when posts without a timer expire. -/
structure Allowed (i : UInt64 × Act) : Prop where
  lostRace : ∀ n e, i.2 = .told n → w.phase = .posting 0 → w.answers[n]? = some (.error e) →
    stale e = true → LostRace c w
  stays : ∀ p, i.2 = .other c.me p → w.feeds.accept C c.me p = .ok () →
    ∀ q ∈ w.taken, q.serial.toNat ∉ (w.feeds.makeRoom p i.1).gone
  early : ∀ blocked, i.2 = .asked blocked → i.1.toInt64 ≠ Int64.maxValue

end

end Sqex.Publishing

/-! Publishing once posts once, as long as a refusal read as a lost race is one. -/
namespace Sqex.Publishing
open Feed Feeds Runs
variable {C : Crypto} {c : Caller} {w : World} {p q : Feed.Post} {now : UInt64}

section Posts
variable {a b : PubKey} {s s' : Feeds} {before rest : List PostRow}

theorem Standing.le_newest (hq : Standing C (s.rows a) q) (hs : Booked s) :
    q.serial.toNat ≤ (s.headOf a).newest := by
  obtain ⟨received, hheld⟩ := hq.held
  exact (hs a).below _ hheld

theorem Passed.not_accepted (hp : Passed (s.headOf a) p) : s.accept C a p ≠ .ok () := by
  intro haccept
  obtain ⟨-, -, hserial, hprev⟩ := accept_ok haccept
  cases hp with
  | inl hle => omega
  | inr hnext => exact hnext.2 hprev

theorem Passed.append (hq : Passed (s.headOf a) q) (haccept : s.accept C b p = .ok ())
    (h : Feeds.Appended C s p now before rest s') : Passed (s'.headOf a) q := by
  obtain ⟨rfl, -, hserial, -⟩ := accept_ok haccept
  by_cases ha : a = p.account
  · subst ha
    refine .inl ?_
    rw [h.head]
    simp only
    cases hq with
    | inl hle | inr hnext => omega
  · rw [(h.other a ha).1]
    exact hq

theorem Standing.append (hq : Standing C (s.rows a) q) (hs : Booked s)
    (haccept : s.accept C b p = .ok ()) (h : Feeds.Appended C s p now before rest s')
    (hstays : b = a → q.serial.toNat ∉ (s.makeRoom p now).gone) :
    Standing C (s'.rows a) q := by
  obtain ⟨rfl, -, hserial, -⟩ := accept_ok haccept
  by_cases ha : a = p.account
  · subst ha
    have hle := hq.le_newest hs
    obtain ⟨received, hheld⟩ := hq.held
    refine ⟨⟨received, ?_⟩, fun r hr hnext => ?_, hq.first⟩
    · have hmem : arriving q received ∈ before ++ rest := by
        rw [← h.split]
        exact List.mem_append_left _ hheld
      have hgone := hstays rfl
      rw [h.gone_eq hs haccept] at hgone
      rw [h.rows]
      cases List.mem_append.mp hmem with
      | inl hbefore => exact absurd (List.mem_map.mpr ⟨_, hbefore, rfl⟩) hgone
      | inr hrest => exact hrest
    · rw [h.rows] at hr
      cases h.mem_rest hr with
      | inl hold => exact hq.linked r hold hnext
      | inr hnew =>
        rw [hnew] at hnext
        simp only [arriving] at hnext
        omega
  · rw [(h.other a ha).2]
    exact hq

theorem Standing.taken (hs : Tipped C s) (haccept : s.accept C a p = .ok ())
    (h : Feeds.Appended C s p now before rest s') : Standing C (s'.rows a) p := by
  obtain ⟨rfl, -, hserial, hprev⟩ := accept_ok haccept
  refine ⟨⟨now, h.arriving_mem⟩, fun r hr hnext => ?_, fun hone => ?_⟩
  · rw [h.rows] at hr
    cases h.mem_rest hr with
    | inl hold =>
      have hlast := (hs.2 p.account).last r hold (by omega)
      rw [hlast, hprev]
    | inr hnew =>
      rw [hnew] at hnext
      simp only [arriving] at hnext
      omega
  · rw [hprev]
    refine (hs.2 p.account).first ?_
    have hnat : p.serial.toNat = 1 := congrArg UInt64.toNat hone
    omega

theorem Passed.aged (hq : Passed (s.headOf a) q) (h : Aged C now a s s') :
    Passed (s'.headOf a) q := by
  rw [Passed, h.newest, h.input]
  exact hq

/-- A post without a timer stands as others expire, before the last of times. -/
theorem Standing.aged (hq : Standing C (s.rows a) q) (htimer : q.expiresAfter = 0)
    (hearly : now.toInt64 ≠ Int64.maxValue) (h : Aged C now a s s') :
    Standing C (s'.rows a) q := by
  obtain ⟨received, hheld⟩ := hq.held
  refine ⟨⟨received, h.stays _ hheld ?_⟩, fun r hr hnext => ?_, hq.first⟩
  · have hnever : (arriving q received).expiresAt = Int64.maxValue := if_pos htimer
    have hle : now.toInt64 ≤ Int64.maxValue := Int64.le_maxValue _
    rw [hnever]
    exact Int64.lt_of_le_of_ne hle hearly
  · obtain ⟨r₀, hr₀, hserial, hlink⟩ := h.rows r hr
    rw [← hlink]
    exact hq.linked r₀ hr₀ (by omega)

end Posts

/-- What holds of a call and the exchange in a run of such steps. The posts taken stand; only
the one sent last is taken, since the feed passed those before it; and the call posts again
only when nothing was taken. -/
structure Sound (C : Crypto) (c : Caller) (w : World) : Prop where
  tipped : Tipped C w.feeds
  standing : ∀ p ∈ w.taken, Standing C (w.feeds.rows c.me) p
  timers : ∀ p ∈ w.sent, p.expiresAfter = 0
  last : ∀ p ∈ w.taken, w.sent.getLast? = some p
  one : w.taken.length ≤ 1
  passed : ∀ p ∈ w.sent.dropLast, Passed (w.feeds.headOf c.me) p
  asking : ∀ n, w.phase = .asking n → LostRace c w
  answered : ∀ a, .ok a ∈ w.answers →
    ∃ p ∈ w.taken, a.serial = p.serial ∧ a.headInput = p.link C
  returned : ∀ a, w.phase = .done (.ok a) →
    ∃ p ∈ w.taken, a.serial = p.serial ∧ a.headInput = p.link C

namespace Sound

theorem begun {s : Feeds} (hs : Tipped C s) (phase : Phase) (hphase : ∀ a, phase ≠ .done (.ok a)) :
    Sound C c ⟨s, phase, [], [], [], []⟩ where
  tipped := hs
  standing := by simp
  timers := by simp
  last := by simp
  one := by simp
  passed := by simp
  asking _ _ := ⟨rfl, by simp⟩
  answered := by simp
  returned a ha := absurd ha (hphase a)

theorem withFeeds {s : Feeds} (hw : Sound C c w) (htipped : Tipped C s)
    (hstanding : ∀ p ∈ w.taken, Standing C (s.rows c.me) p)
    (hpassed : ∀ p, Passed (w.feeds.headOf c.me) p → Passed (s.headOf c.me) p) :
    Sound C c { w with feeds := s } :=
  { hw with
    tipped := htipped
    standing := hstanding
    passed := fun p hp => hpassed p (hw.passed p hp)
    asking := fun n hn => ⟨(hw.asking n hn).1, fun p hp => hpassed p ((hw.asking n hn).2 p hp)⟩ }

/-- A call that reads the head signs a post that is the first, or replaces one that lost. -/
theorem publishAt (hw : Sound C c w) (hlost : LostRace c w) (attempt : Nat) (h : Headed)
    (issuedAt : UInt64) : Sound C c (publishAt C c w attempt h issuedAt) := by
  obtain ⟨htaken, hpassed⟩ := hlost
  rw [Publishing.publishAt]
  split
  · exact { hw with
      asking := fun n hn => by simp at hn
      returned := fun a ha => by simp at ha }
  · exact {
      tipped := hw.tipped
      standing := hw.standing
      timers := fun p hp => by
        rcases mem_concat.mp hp with hold | rfl
        · exact hw.timers p hold
        · rfl
      last := by simp [htaken]
      one := hw.one
      passed := by simpa using hpassed
      asking := fun n hn => by simp at hn
      answered := by simp
      returned := fun a ha => by simp at ha }

theorem hear (hw : Sound C c w) {attempt n : Nat} {answer : Except FeedError Appended}
    (hanswer : w.answers[n]? = some answer)
    (hlost : ∀ e, answer = .error e → attempt = 0 → stale e = true → LostRace c w) :
    Sound C c (hear w attempt answer) := by
  cases answer with
  | ok a =>
    have hreturned := hw.answered a (List.mem_of_getElem? hanswer)
    exact { hw with
      asking := fun n hn => by simp [Publishing.hear] at hn
      returned := fun b hb => by
        obtain rfl : a = b := by simpa [Publishing.hear] using hb
        exact hreturned }
  | error e =>
    rw [Publishing.hear]
    split
    · rename_i hretry
      exact { hw with
        asking := fun _ _ => hlost e rfl hretry.1 hretry.2
        returned := fun a ha => by simp at ha }
    · exact { hw with
        asking := fun n hn => by simp at hn
        returned := fun a ha => by simp at ha }

theorem only (hw : Sound C c w) {n : Nat} (hp : w.sent[n]? = some p)
    (haccept : w.feeds.accept C c.me p = .ok ()) :
    n + 1 = w.sent.length ∧ w.sent.getLast? = some p ∧ w.taken = [] := by
  have hlt : n < w.sent.length := (List.getElem?_eq_some_iff.mp hp).1
  have hn : n + 1 = w.sent.length := by
    by_contra hne
    have hdrop : w.sent.dropLast[n]? = some p := by
      rw [List.getElem?_dropLast, if_pos (by omega), hp]
    exact (hw.passed p (List.mem_of_getElem? hdrop)).not_accepted haccept
  have hlast : w.sent.getLast? = some p := by
    rw [List.getLast?_eq_getElem?, ← hn]
    exact hp
  refine ⟨hn, hlast, List.eq_nil_iff_forall_not_mem.mpr fun q hq => ?_⟩
  obtain rfl : p = q := Option.some.inj (hlast.symm.trans (hw.last q hq))
  have hle := (hw.standing p hq).le_newest hw.tipped.1
  exact (show Passed _ p from .inl hle).not_accepted haccept

theorem take (hw : Sound C c w) {n : Nat} (hp : w.sent[n]? = some p) (now : UInt64) :
    Sound C c (take C c w now n p) := by
  cases append_cases C hw.tipped.1 c.me p now with
  | inl hrefused =>
    obtain ⟨e, hresult, hsame⟩ := hrefused
    have htake : Publishing.take C c w now n p = { w with
        answers := if n + 1 = w.sent.length then w.answers ++ [.error e] else w.answers } := by
      simp only [Publishing.take, hresult, hsame]
      rfl
    rw [htake]
    refine { hw with answered := fun a ha => hw.answered a ?_ }
    simp only at ha
    split at ha
    · simpa using ha
    · exact ha
  | inr haccepted =>
    obtain ⟨haccept, -, hresult, before, rest, hspec⟩ := haccepted
    obtain ⟨hn, hlast, hnone⟩ := hw.only hp haccept
    have hstands := Standing.taken hw.tipped haccept hspec
    have htipped : Tipped C (after (append C c.me p now) w.feeds) :=
      hw.tipped.perform (.append c.me p)
    have hmoved := hw.withFeeds htipped (by simp [hnone]) fun q hq => hq.append haccept hspec
    have htake : Publishing.take C c w now n p = { w with
        feeds := after (append C c.me p now) w.feeds
        answers := w.answers ++ [.ok ⟨p.serial, now, p.link C, now⟩]
        taken := [p] } := by
      simp only [Publishing.take, hresult, hn, hnone]
      simp [Except.map, Except.isOk, Except.toBool]
    rw [htake]
    exact {
      tipped := htipped
      standing := by simpa using hstands
      timers := hw.timers
      last := by simpa using hlast
      one := Nat.le_refl 1
      passed := hmoved.passed
      asking := fun m hm => by
        have hpassed := (hw.asking m hm).2 p (List.mem_of_getElem? hp)
        exact absurd haccept hpassed.not_accepted
      answered := fun a ha => by
        cases List.mem_append.mp ha with
        | inl hold =>
          obtain ⟨q, hq, -⟩ := hw.answered a hold
          simp [hnone] at hq
        | inr hnew =>
          obtain rfl : a = ⟨p.serial, now, p.link C, now⟩ := by simpa using hnew
          exact ⟨p, by simp, rfl, rfl⟩
      returned := fun a ha => by
        obtain ⟨q, hq, -⟩ := hw.returned a ha
        simp [hnone] at hq }

theorem step (hw : Sound C c w) (i : UInt64 × Act) (hi : Allowed C c w i) :
    Sound C c (step C c w i) := by
  obtain ⟨now, act⟩ := i
  cases act with
  | other a p =>
    have hmoved : Tipped C (after (append C a p now) w.feeds) := hw.tipped.perform (.append a p)
    cases append_cases C hw.tipped.1 a p now with
    | inl hrefused =>
      obtain ⟨e, -, hsame⟩ := hrefused
      rw [Publishing.step, hsame]
      exact hw
    | inr haccepted =>
      obtain ⟨haccept, -, -, before, rest, hspec⟩ := haccepted
      refine hw.withFeeds hmoved (fun q hq => ?_) fun q hq => hq.append haccept hspec
      refine (hw.standing q hq).append hw.tipped.1 haccept hspec fun ha => ?_
      subst ha
      exact hi.stays p rfl haccept q hq
  | arrive n =>
    rw [Publishing.step]
    cases hp : w.sent[n]? with
    | none => exact hw
    | some p => exact hw.take hp now
  | asked blocked =>
    cases blocked with
    | true => exact { hw with }
    | false =>
      have haged := @aged_expire C _ hw.tipped.1 now c.me
      have hearly := hi.early false rfl
      have hread : Tipped C (after (expire now) w.feeds) := hw.tipped.perform .read
      have hmoved := hw.withFeeds hread
        (fun q hq => (hw.standing q hq).aged (hw.timers q (List.mem_of_getLast? (hw.last q hq)))
          hearly haged)
        fun q hq => hq.aged haged
      exact { hmoved with }
  | headed n issuedAt =>
    rw [Publishing.step]
    split
    · rename_i attempt h hphase hhead
      exact hw.publishAt (hw.asking attempt hphase) attempt h issuedAt
    · exact hw
  | told n =>
    rw [Publishing.step]
    split
    · rename_i attempt answer hphase hanswer
      refine hw.hear hanswer fun e he hfirst hstale => ?_
      subst hfirst he
      exact hi.lostRace n e rfl hphase hanswer hstale
    · exact hw
  | failed =>
    rw [Publishing.step]
    split
    · exact hw
    · exact { hw with
        asking := fun n hn => by simp at hn
        returned := fun a ha => by simp at ha }

theorem once (hw : Sound C c w) : Once C c w where
  one := hw.one
  returned a ha := by
    obtain ⟨p, hp, hserial, hlink⟩ := hw.returned a ha
    exact ⟨p, hp, hserial, hlink, hw.standing p hp⟩

theorem begin {s : Feeds} (hs : Tipped C s) (entry : Entry) : Sound C c (begin C c s entry) := by
  have hasking : Sound C c ⟨s, .asking 0, [], [], [], []⟩ := begun hs (.asking 0) (by simp)
  cases entry with
  | publish => exact hasking
  | publishFrom h issuedAt => exact hasking.publishAt (hasking.asking 0 rfl) 0 h issuedAt

end Sound

/-- From any state of the feeds, and beside any appends: where the first post's refusal is heard
only after a lost race, a call of `publish` or `publish_from` leaves at most one post, and the post
it returns stands in the feed. -/
theorem posts_once (C : Crypto) (c : Caller) (before : List (UInt64 × Feeds.Act)) (entry : Entry)
    (acts : List (UInt64 × Act))
    (h : Each (Allowed C c) (step C c)
      (begin C c (run (Feeds.step C) opened before) entry) acts) :
    Always (Once C c) (step C c) (begin C c (run (Feeds.step C) opened before) entry) acts := by
  have hbegin : Sound C c (begin C c (run (Feeds.step C) opened before) entry) :=
    Sound.begin (tipped_run before) entry
  exact (h.always (fun _ i hw hi => hw.step i hi) hbegin).imp fun _ hw => hw.once

section Edges

def writer : Caller := ⟨1, author, [7]⟩

/-- A head from before the feed's first post. -/
def early : Entry := .publishFrom (.none 1) 2

/-- The first post was refused, for the feed had one by then, and the second is taken. -/
def overtaken : List (UInt64 × Act) :=
  [(3, .arrive 0), (3, .told 0), (4, .asked false), (4, .headed 0 4), (5, .arrive 1),
    (5, .told 0)]

theorem posts_once_overtaken :
    Always (Once .toy writer) (step .toy writer)
      (begin .toy writer (run (Feeds.step .toy) opened [(1, .append author firstPost)]) early)
      overtaken :=
  posts_once .toy writer [(1, .append author firstPost)] early overtaken
    ⟨⟨by simp, by simp, by simp⟩,
      ⟨fun _ _ _ _ _ _ => by decide +kernel, by simp, by simp⟩,
      ⟨by simp, by simp, fun _ _ => by decide⟩,
      ⟨by simp, by simp, by simp⟩,
      ⟨by simp, by simp, by simp⟩,
      ⟨fun _ _ _ hphase => absurd hphase (by decide +kernel), by simp, by simp⟩, trivial⟩

/-- The answer to the first post is lost and the request goes again: its refusal is heard, and
the call posts anew. -/
def resent : List (UInt64 × Act) :=
  [(1, .asked false), (1, .headed 0 1), (2, .arrive 0), (3, .arrive 0), (3, .told 1),
    (4, .asked false), (4, .headed 0 4), (5, .arrive 1), (5, .told 0)]

/-- One call, nobody else, and two posts of one body. -/
theorem resent_posts_twice :
    ¬ Once .toy writer (run (step .toy writer) (begin .toy writer opened .publish) resent) ∧
      (((run (step .toy writer) (begin .toy writer opened .publish) resent).feeds.rows
        author).map fun r => (r.serial, r.post.body)) = [(1, [7]), (2, [7])] := by
  refine ⟨fun h => absurd h.one ?_, ?_⟩ <;> decide +kernel

end Edges

end Sqex.Publishing
