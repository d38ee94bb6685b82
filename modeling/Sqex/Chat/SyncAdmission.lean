import Sqex.Chat.SyncWalk

/-! What a session peer comes by, and what it changes, before a hello of its own
is let in. The checks are the door's alone: a message taken or a page served before
it has to be harmless by itself. -/
namespace Sqex.Chat.Sync
open Runs Call
variable {s : Syncing} {W : World} {a : Answers} {channel inst : Bytes32}
  {ks : List (UInt32 × Bytes32)}

def Message.withheld : Message → Bool
  | .have' _ | .earlier _ | .keys _ _ | .keysOf _ _ _ | .entries _ _ _ | .blob _ _ _ _
  | .key _ => true
  | .hello _ _ | .want _ | .wantEarlier _ | .done => false

/-- Whether a hello checks out: of this account, and from a peer its exchange lists
today, with a credential of the account for the peer, or the account itself. -/
def letsIn (C : Crypto) (y : Sync) (c : Client) (account : PubKey)
    (credential : Option Credential) (a : Answers) : Bool :=
  account == c.me && match a.devices with
    | .error _ => false
    | .ok devices =>
      let found := siblingListed c.me y.peer devices
      found.1 && match credential with
        | some cred => cred.delegate == y.peer && (cred.verify C c.me scopeChat found.2).isOk
        | none => y.peer == c.me

def Event.admits (C : Crypto) : Event → Bool
  | .took y c (.hello account credential) a => letsIn C y c account credential a
  | _ => false

def admittedIn (C : Crypto) (h : List Event) : Bool := h.any (Event.admits C)

def BeforeAdmission (C : Crypto) (P : Event → Prop) : List Event → Prop
  | [] => True
  | e :: h => BeforeAdmission C P h ∧ (admittedIn C h = true ∨ P e)

def Event.hands : Event → Bool
  | .queued m => m.withheld
  | _ => false

def Event.allowed : Event → Prop
  | .queued m => m.withheld = false
  | .wrote before after => after = before
  | _ => True

def historyHeld (c : Client) (channel inst : Bytes32) (keys : List (UInt32 × Bytes32)) : Bool :=
  (c.generationOf channel inst).any fun g => keys.all fun k =>
    (c.generationRows channel).all fun row =>
      row.generation != g || row.channelKeyHistory.contains k.1

/-- Whether the live import turns a page away before it changes anything: another
incarnation is held, the exchange does not say which it serves, or it serves another
and the channel's home need not be asked. -/
def importRefused (c : Client) (channel inst : Bytes32) (a : Answers) : Bool :=
  (c.incarnation channel).any (· != inst) ||
    match a.info with
    | .ok info => info.inst != inst && c.homes.contains channel
    | .error _ => true

/-- What a message may be to leave the store as it is: epoch keys held already, a generation not
asked for or held, entries turned away or none, a seed not the account's or held already. -/
def Message.harmless (C : Crypto) (y : Sync) (c : Client) (a : Answers) : Message → Prop
  | .keys channel ks => ∀ k ∈ ks, (c.store.key channel k.1).isSome
  | .keysOf channel inst ks => y.asked (channel, inst) = none ∨ historyHeld c channel inst ks = true
  | .entries channel inst es =>
    es = [] ∨ y.asked (channel, inst) = none ∧ importRefused c channel inst a = true
  | .key seed => C.publicKey seed = c.me → c.accountSeed C = some seed
  | _ => True

/-- A message that leaves the store as it is; a page that holds neither keys nor
entries. -/
def Event.harmless (C : Crypto) : Event → Prop
  | .took y c m a => m.harmless C y c a
  | .served now y c o =>
    (lacksKeys y o → keysOwed c o = []) ∧ (nextPage now c o).2 = []
  | _ => True

instance Message.instDecidableHarmless (C : Crypto) (y : Sync) (c : Client) (a : Answers) :
    (m : Message) → Decidable (m.harmless C y c a)
  | .keys channel ks =>
    inferInstanceAs (Decidable (∀ k ∈ ks, (c.store.key channel k.1).isSome = true))
  | .keysOf channel inst ks =>
    inferInstanceAs (Decidable (y.asked (channel, inst) = none ∨
      historyHeld c channel inst ks = true))
  | .entries channel inst es =>
    inferInstanceAs (Decidable (es = [] ∨ y.asked (channel, inst) = none ∧
      importRefused c channel inst a = true))
  | .key seed =>
    inferInstanceAs (Decidable (C.publicKey seed = c.me → c.accountSeed C = some seed))
  | .hello _ _ | .have' _ | .want _ | .blob _ _ _ _ | .done | .earlier _ | .wantEarlier _ =>
    isTrue trivial

instance Event.instDecidableHarmless (C : Crypto) : (e : Event) → Decidable (e.harmless C)
  | .took y c m a => inferInstanceAs (Decidable (m.harmless C y c a))
  | .served now y c o => inferInstanceAs (Decidable
      ((lacksKeys y o → keysOwed c o = []) ∧ (nextPage now c o).2 = []))
  | .queued _ | .wrote _ _ => isTrue trivial

instance BeforeAdmission.instDecidable (C : Crypto) (P : Event → Prop) [DecidablePred P] :
    (h : List Event) → Decidable (BeforeAdmission C P h)
  | [] => isTrue trivial
  | e :: h =>
    have := BeforeAdmission.instDecidable C P h
    inferInstanceAs (Decidable (BeforeAdmission C P h ∧ (admittedIn C h = true ∨ P e)))

/-- The door refuses nobody who checks out, and everybody else. -/
theorem refusal_isNone (C : Crypto) (me peer : PubKey) (listed : Bool) (now : UInt64)
    (credential : Option Credential) :
    (refusal C me peer listed now credential).isNone = (listed && match credential with
      | some cred => cred.delegate == peer && (cred.verify C me scopeChat now).isOk
      | none => peer == me) := by
  cases credential with
  | none =>
    cases listed with
    | false => simp [refusal]
    | true =>
      by_cases hpeer : peer = me
      · simp [refusal, hpeer]
      · simp [refusal, hpeer]
  | some cred =>
    by_cases hdelegate : cred.delegate = peer
    · cases hverify : cred.verify C me scopeChat now with
      | error e => simp [refusal, hdelegate, hverify, Except.isOk, Except.toBool]
      | ok u =>
        cases listed with
        | false => simp [refusal, hdelegate, hverify]
        | true => simp [refusal, hdelegate, hverify, Except.isOk, Except.toBool]
    · simp [refusal, hdelegate]

section Histories
variable {C : Crypto} {P : Event → Prop} {e : Event} {h : List Event}

theorem beforeAdmission_mem (hshut : admittedIn C h = false) (hP : BeforeAdmission C P h)
    (he : e ∈ h) : P e := by
  induction h with
  | nil => cases he
  | cons e' h ih =>
    simp only [admittedIn, List.any_cons, Bool.or_eq_false_iff] at hshut
    obtain ⟨hrest, hfirst⟩ := hP
    cases he with
    | head => exact hfirst.resolve_left fun h => Bool.false_ne_true (hshut.2.symm.trans h)
    | tail _ he => exact ih hshut.2 hrest he

end Histories

section Shut
variable {C : Crypto} {client : Client}

def OpenedWell (C : Crypto) (h : List Event) : Prop :=
  admittedIn C h = true ∧ BeforeAdmission C Event.allowed h

theorem openedWell_cons (e : Event) (h : List Event) (hopen : OpenedWell C h) :
    OpenedWell C (e :: h) := by
  obtain ⟨hadmitted, hallowed⟩ := hopen
  refine ⟨?_, hallowed, Or.inl hadmitted⟩
  simp only [admittedIn, List.any_cons] at hadmitted ⊢
  simp [hadmitted]

/-- No hello let in so far: nothing withheld said, the client as it was, and no
attachment wanted. -/
structure Shut (C : Crypto) (client : Client) (s : Syncing) : Prop where
  unadmitted : admittedIn C s.history = false
  allowed : BeforeAdmission C Event.allowed s.history
  same : s.client = client
  noBlobs : s.sync.blobsWanted = ∅

theorem shut_update {f : Sync → Sync} (hf : ∀ y, (f y).blobsWanted = y.blobsWanted) :
    Keeps (Shut C client) (update f) :=
  fun s h => ⟨h.unadmitted, h.allowed, h.same, (hf s.sync).trans h.noBlobs⟩

theorem shut_note {e : Syncing → Event} (h : Shut C client s) (hshut : (e s).admits C = false)
    (hallowed : (e s).allowed) :
    Shut C client ((note e).after s) := by
  have hunadmitted : admittedIn C (e s :: s.history) = false := by
    have hbefore := h.unadmitted
    simp only [admittedIn, List.any_cons] at hbefore ⊢
    rw [hshut, hbefore]
    rfl
  exact ⟨hunadmitted, ⟨h.allowed, Or.inr hallowed⟩, h.same, h.noBlobs⟩

theorem shut_queue {m : Message} (hm : m.withheld = false) : Keeps (Shut C client) (queue m) :=
  keeps_bind (shut_update fun _ => rfl) fun _ _ hs => shut_note hs rfl hm

theorem shut_writing {f : Client → Client} (hf : f client = client) :
    Keeps (Shut C client) (writing f) := by
  intro s h
  have hsame : f s.client = s.client := by rw [h.same, hf]
  have hnoted := shut_note (e := fun s => .wrote s.client (f s.client)) h rfl hsame
  exact ⟨hnoted.unadmitted, hnoted.allowed, hsame.trans h.same, h.noBlobs⟩

theorem shut_failed (why : String) : Keeps (Shut C client) (failed why) :=
  shut_update fun _ => rfl

theorem shut_count (f : Progress → Progress) : Keeps (Shut C client) (count f) :=
  shut_update fun _ => rfl

theorem foldl_blobsWanted {β : Type} {f : Sync → β → Sync}
    (hf : ∀ y b, (f y b).blobsWanted = y.blobsWanted) (bs : List β) (y : Sync) :
    (bs.foldl f y).blobsWanted = y.blobsWanted := by
  induction bs generalizing y with
  | nil => rfl
  | cons b bs ih => exact (ih (f y b)).trans (hf y b)

theorem shut_takeHello {account : PubKey} {credential : Option Credential} (hs : Shut C client s)
    (hout : letsIn W.crypto s.sync s.client account credential a = false) :
    Shut C client ((takeHello W account credential a).after s) := by
  have hall : Triple (Shut C client)
      (fun s => letsIn W.crypto s.sync s.client account credential a = false)
      (takeHello W account credential a) fun _ _ => True := by
    refine triple_get_bind fun s _ hout => ?_
    have hfailed : ∀ why, Triple (Shut C client) (fun s' => s' = s) (failed why)
        fun _ _ => True := fun why => (shut_failed why).triple
    refine triple_ite (fun _ => hfailed _) fun haccount => ?_
    cases hdevices : a.devices with
    | error e => exact triple_bind (triple_fail e) fun _ => triple_false
    | ok devices =>
      refine triple_pure_bind ?_
      let found := siblingListed s.client.me s.sync.peer devices
      have hrefused : (refusal W.crypto s.client.me s.sync.peer found.1 found.2
          credential).isNone = false := by
        rw [refusal_isNone]
        simpa [letsIn, not_not.mp haccount, hdevices] using hout
      cases hwhy : refusal W.crypto s.client.me s.sync.peer found.1 found.2 credential with
      | some why =>
        dsimp only [found] at hwhy ⊢
        rw [hwhy]
        exact hfailed why
      | none => simp [hwhy] at hrefused
  exact (hall s hs hout).1

theorem shut_takeHave (W : World) (theirs : List Held) :
    Keeps (Shut C client) (takeHave W theirs) := by
  refine keeps_bind keeps_get fun s => ?_
  have hask : ∀ (y : Sync) (w : Generation × UInt64), (y.ask w.1).blobsWanted = y.blobsWanted :=
    fun _ _ => rfl
  refine keeps_bind (shut_update fun y => foldl_blobsWanted hask _ y) fun _ => ?_
  refine keeps_bind (keeps_doIf (shut_queue rfl)) fun _ => ?_
  exact keeps_bind (shut_queue rfl) fun _ => shut_update fun _ => rfl

theorem putKey_held {epoch : UInt32} (hheld : (client.store.key channel epoch).isSome)
    (key : Bytes32) :
    client.putKey channel epoch key = client := by
  have hin : epoch ∈ (client.store.filed client.store.scope channel).channelKey := by
    simpa [Store.key] using hheld
  simp [Client.putKey, Store.putKey, Store.put, insertIfNew_of_mem hin]

theorem putHistoryKey_held {g : UInt64} {epoch : UInt32}
    (hheld : ∀ row ∈ client.generationRows channel, row.generation = g →
      epoch ∈ row.channelKeyHistory) (key : Bytes32) :
    client.putHistoryKey channel g epoch key = client := by
  unfold Client.putHistoryKey
  cases hrows : client.generations[channel]? with
  | none => rfl
  | some rows =>
    have hkept : (rows.map fun row => if row.generation = g then
        { row with channelKeyHistory := row.channelKeyHistory.insertIfNew epoch key }
        else row) = rows := by
      refine (List.map_congr_left fun row hrow => ?_).trans (List.map_id rows)
      by_cases hg : row.generation = g
      · have hin := hheld row (by simpa [Client.generationRows, hrows] using hrow) hg
        rw [if_pos hg, insertIfNew_of_mem hin]
        rfl
      · exact if_neg hg
    simp only [hkept, insert_of_lookup hrows]

theorem triple_takeEachKey (hheld : ∀ k ∈ ks, (client.store.key channel k.1).isSome) :
    Triple (Shut C client) (fun _ => True) (takeEachKey channel false ks)
      fun fresh _ => fresh = false := by
  induction ks with
  | nil => exact triple_pure fun _ _ _ => rfl
  | cons k ks ih =>
    have hk := hheld k List.mem_cons_self
    refine triple_get_bind fun s hs _ => ?_
    have hlacking : (s.client.store.key channel k.1).isNone = false := by
      rw [hs.same]
      simpa using hk
    refine triple_bind (shut_writing (putKey_held hk k.2)).triple fun _ => ?_
    refine triple_bind (shut_count _).triple fun _ => ?_
    rw [hlacking]
    exact (ih fun k' hk' => hheld k' (List.mem_cons_of_mem k hk')).imp (fun _ _ => trivial)
      fun _ _ h => h

theorem shut_takeKeys (hheld : ∀ k ∈ ks, (client.store.key channel k.1).isSome) :
    Keeps (Shut C client) (takeKeys channel ks) := by
  have hall : Triple (Shut C client) (fun _ => True) (takeKeys channel ks) fun _ _ => True := by
    refine triple_bind (triple_takeEachKey hheld) fun fresh => ?_
    refine triple_get_bind fun s _ hfresh => Keeps.triple ?_
    refine keeps_bind (keeps_doIf_of fun hc => ?_) fun _ => shut_count _
    rw [hfresh] at hc
    exact absurd hc.1 Bool.false_ne_true
  exact hall.keeps

theorem shut_takeKeysOf (hs : Shut C client s)
    (hm : s.sync.asked (channel, inst) = none ∨ historyHeld client channel inst ks = true) :
    Shut C client ((takeKeysOf channel inst ks).after s) := by
  have hall : Triple (Shut C client) (fun s => s.sync.asked (channel, inst) = none ∨
      historyHeld client channel inst ks = true) (takeKeysOf channel inst ks)
      fun _ _ => True := by
    refine triple_get_bind fun s hs hm => Keeps.triple ?_
    cases hasked : s.sync.asked (channel, inst) with
    | none => exact keeps_pure ()
    | some origin =>
      have hheld := hm.resolve_left (by simp [hasked])
      unfold historyHeld at hheld
      cases hg : client.generationOf channel inst with
      | none => simp [hg] at hheld
      | some g =>
        have hrows : ∀ k ∈ ks, ∀ row ∈ client.generationRows channel, row.generation = g →
            k.1 ∈ row.channelKeyHistory := by
          have hall : ∀ epoch key, (epoch, key) ∈ ks → ∀ row ∈ client.generationRows channel,
              ¬ row.generation = g ∨ epoch ∈ row.channelKeyHistory := by
            simpa [hg] using hheld
          intro k hk row hrow hgen
          exact (hall k.1 k.2 hk row hrow).resolve_left fun h => h hgen
        have hfound : Triple (Shut C client) (fun _ => True) (generationFor channel inst origin)
            fun g' _ => g' = g := by
          refine triple_get_bind fun s hs _ => ?_
          rw [hs.same, hg]
          exact triple_pure fun _ _ _ => rfl
        have hrest : Triple (Shut C client) (fun _ => True) (do
            let generation ← generationFor channel inst origin
            Call.forEach (fun k => do
              writing fun c => c.putHistoryKey channel generation k.1 k.2
              count fun p => { p with keysIn := p.keysIn + 1 }) ks) fun _ _ => True := by
          refine triple_bind hfound fun g' => ?_
          intro s hs hg'
          obtain rfl := hg'
          have hkept : Keeps (Shut C client) (Call.forEach (fun k => do
              writing fun c => c.putHistoryKey channel g' k.1 k.2
              count fun p => { p with keysIn := p.keysIn + 1 }) ks) :=
            keeps_forEach_of fun k hk =>
              keeps_bind (shut_writing (putHistoryKey_held (hrows k hk) k.2)) fun _ => shut_count _
          exact ⟨hkept s hs, fun _ _ => trivial⟩
        exact hrest.keeps
  exact (hall s hs hm).1

theorem shut_takeNoEntries (W : World) (channel inst : Bytes32) (a : Answers) :
    Keeps (Shut C client) (takeEntries W channel inst [] a) := by
  have himported : ∀ generation n messages,
      Keeps (Shut C client) (imported W channel generation [] n messages) := by
    intro generation n messages
    refine keeps_bind (shut_count _) fun _ => keeps_bind keeps_get fun s => shut_update fun y => ?_
    simp
  refine keeps_bind keeps_get fun s => ?_
  cases s.sync.asked (channel, inst) with
  | some origin =>
    refine keeps_bind keeps_get fun s => keeps_bind (keeps_pure 0) fun n => ?_
    exact keeps_bind keeps_get fun s => himported _ n _
  | none =>
    refine keeps_bind keeps_get fun s => keeps_bind (keeps_pure 0) fun n => ?_
    exact keeps_bind keeps_get fun s => himported _ n _

theorem importLive_refused {es : List Entry} (hes : es ≠ [])
    (hrefused : importRefused client channel inst a = true) :
    Triple (Shut C client) (fun _ => True) (importLive W channel inst es a) fun _ _ => False := by
  unfold importLive
  rw [if_neg hes]
  refine triple_get_bind fun s hs _ => ?_
  by_cases hinst : (s.client.incarnation channel).any (· != inst) = true
  · exact triple_bind (triple_failIf hinst _) fun _ => triple_false
  · refine triple_bind (keeps_failIf _).triple fun _ => ?_
    have hserved : (match a.info with
        | .ok info => info.inst != inst && client.homes.contains channel
        | .error _ => true) = true := by
      rw [hs.same] at hinst
      simpa [importRefused, hinst] using hrefused
    cases hinfo : a.info with
    | error e =>
      have hunanswered : Triple (Shut C client) (fun _ => True) (lookAt W channel a)
          fun _ _ => False := by
        unfold lookAt
        rw [hinfo]
        exact triple_bind (triple_fail e) fun _ => triple_false
      exact triple_bind hunanswered fun _ => triple_false
    | ok info =>
      rw [hinfo] at hserved
      obtain ⟨hother, hknown⟩ : info.inst ≠ inst ∧ channel ∈ client.homes := by
        simpa using hserved
      have hlooked : Triple (Shut C client) (fun _ => True) (lookAt W channel a)
          fun i _ => i.inst ≠ inst := by
        unfold lookAt
        rw [hinfo]
        refine triple_pure_bind (triple_get_bind fun s hs _ => ?_)
        refine triple_bind (keeps_doIf_of fun hunasked => ?_).triple fun _ =>
          triple_pure fun _ _ _ => hother
        rw [hs.same] at hunasked
        exact absurd hknown hunasked
      refine triple_bind hlooked fun i => ?_
      by_cases hi : i.inst ≠ inst
      · exact triple_bind (triple_failIf hi _) fun _ => triple_false
      · exact fun _ _ hne => absurd hne hi

theorem shut_takeEntries {es : List Entry} (hs : Shut C client s) (hm : es = [] ∨
      s.sync.asked (channel, inst) = none ∧ importRefused client channel inst a = true) :
    Shut C client ((takeEntries W channel inst es a).after s) := by
  by_cases hes : es = []
  · rw [hes]
    exact shut_takeNoEntries W channel inst a s hs
  · obtain ⟨hasked, hrefused⟩ := hm.resolve_left hes
    have hall : Triple (Shut C client) (fun s => s.sync.asked (channel, inst) = none)
        (takeEntries W channel inst es a) fun _ _ => True := by
      refine triple_get_bind fun s hs hasked => ?_
      rw [hasked]
      refine triple_get_bind fun s hs _ => ?_
      have hnever : Triple (Shut C client) (fun s' => s' = s) (importLive W channel inst es a)
          fun _ _ => False :=
        (importLive_refused hes hrefused).imp (fun _ _ => trivial) fun _ _ h => h
      exact triple_bind hnever fun _ => triple_false
    exact (hall s hs hasked).1

theorem shut_takeBlob (W : World) (id : Bytes32) (chunk of : UInt32) (bytes : Bytes) :
    Keeps (Shut C client) (takeBlob W id chunk of bytes) := by
  refine keeps_get_bind fun s hs => ?_
  rw [if_pos (Or.inl (by simp [hs.noBlobs]))]
  exact keeps_pure ()

theorem shut_takeKey {C : Crypto} {seed : Bytes32}
    (hm : C.publicKey seed = client.me → client.accountSeed C = some seed) :
    Keeps (Shut C client) (takeKey C seed) := by
  refine keeps_get_bind fun s hs => ?_
  by_cases hmine : C.publicKey seed = s.client.me
  · rw [if_neg (fun h => h hmine)]
    refine keeps_bind (keeps_doIf_of fun hc => ?_) fun _ => shut_update fun _ => rfl
    rw [hs.same] at hmine hc
    exact absurd (hm hmine) hc
  · rw [if_pos hmine]
    exact shut_failed _

theorem shut_serveNothing {now : UInt64} {o : Owed} (hs : Shut C client s)
    (hkeys : lacksKeys s.sync o → keysOwed client o = []) (hpage : (nextPage now client o).2 = []) :
    Shut C client ((servePage W now o).after s) := by
  have hsent : Triple (Shut C client) (fun s => lacksKeys s.sync o → keysOwed client o = [])
      (serveKeys o) fun _ _ => True := by
    refine triple_get_bind fun s hs hnone => Keeps.triple (keeps_doIf_of fun hlacks => ?_)
    refine keeps_bind (shut_update fun _ => rfl) fun _ => keeps_doIf_of fun hsome => ?_
    rw [hs.same] at hsome
    exact absurd (hnone hlacks) hsome
  have hall : Triple (Shut C client) (fun s => lacksKeys s.sync o → keysOwed client o = [])
      (servePage W now o) fun _ _ => True := by
    refine triple_bind hsent fun _ => triple_get_bind fun s hs _ => Keeps.triple ?_
    have hnone : (nextPage now s.client o).2 = [] := by rw [hs.same, hpage]
    refine keeps_bind (keeps_doIf_of fun hsome => absurd hnone hsome) fun _ => ?_
    rw [hnone]
    exact keeps_bind (keeps_pure ()) fun _ => shut_update fun _ => rfl
  exact (hall s hs hkeys).1

end Shut

section Runs
variable {C : Crypto} {client : Client} {α : Type}

/-- A hello was let in with nothing out of place before it, or none was and the
client is as it was; unless something that happened before was not harmless. -/
def Watched (C : Crypto) (client : Client) (s : Syncing) : Prop :=
  ¬ BeforeAdmission C (Event.harmless C) s.history ∨ OpenedWell C s.history ∨ Shut C client s

theorem unharmless_cons (e : Event) (h : List Event)
    (hbad : ¬ BeforeAdmission C (Event.harmless C) h) :
    ¬ BeforeAdmission C (Event.harmless C) (e :: h) := fun hall => hbad hall.1

theorem watched_of {m : SyncM α}
    (halong : ∀ Q : List Event → Prop, (∀ e h, Q h → Q (e :: h)) → Keeps (Along Q) m)
    (hshut : Keeps (Shut C client) m) : Keeps (Watched C client) m := by
  intro s hs
  cases hs with
  | inl hbad => exact Or.inl (halong _ unharmless_cons s hbad)
  | inr hs =>
    cases hs with
    | inl hopen => exact Or.inr (Or.inl (halong _ openedWell_cons s hopen))
    | inr hs => exact Or.inr (Or.inr (hshut s hs))

/-- A call that is noted first is watched, where it keeps the door shut whenever its
note lets nobody in and is harmless. -/
theorem watched_noted {e : Syncing → Event} {m : SyncM α}
    (halong : ∀ Q : List Event → Prop, (∀ e h, Q h → Q (e :: h)) → Keeps (Along Q) m)
    (hallowed : ∀ s, (e s).allowed)
    (hm : ∀ s, Shut C client s → (e s).admits C = false → (e s).harmless C →
      Shut C client (m.after ((note e).after s))) :
    Keeps (Watched C client) (do
      note e
      m) := by
  intro s hs
  change Watched C client (m.after ((note e).after s))
  cases hs with
  | inl hbad => exact Or.inl (halong _ unharmless_cons _ (unharmless_cons _ _ hbad))
  | inr hs =>
    cases hs with
    | inl hopen => exact Or.inr (Or.inl (halong _ openedWell_cons _ (openedWell_cons _ _ hopen)))
    | inr hs =>
      cases hadmits : (e s).admits C with
      | true =>
        have hopen : OpenedWell C (e s :: s.history) := by
          refine ⟨?_, hs.allowed, Or.inr (hallowed s)⟩
          simp [admittedIn, hadmits]
        exact Or.inr (Or.inl (halong _ openedWell_cons _ hopen))
      | false =>
        by_cases hharm : (e s).harmless C
        · exact Or.inr (Or.inr (hm s hs hadmits hharm))
        · refine Or.inl (halong _ unharmless_cons _ fun hall => ?_)
          cases hall.2 with
          | inl hadmitted => exact Bool.false_ne_true (hs.unadmitted.symm.trans hadmitted)
          | inr hharmless => exact hharm hharmless

theorem shut_takeUp {m : Message} (hs : Shut W.crypto client s)
    (hout : (Event.took s.sync s.client m a).admits W.crypto = false)
    (hm : m.harmless W.crypto s.sync s.client a) :
    Shut W.crypto client ((takeUp W m a).after s) := by
  rw [hs.same] at hm
  cases m with
  | hello account credential => exact shut_takeHello hs hout
  | have' theirs => exact shut_takeHave W theirs s hs
  | want wants =>
    have hkeeps : Keeps (Shut W.crypto client) (takeWant wants) := shut_update fun _ => rfl
    exact hkeeps s hs
  | entries channel inst es => exact shut_takeEntries hs hm
  | keys channel ks => exact shut_takeKeys hm s hs
  | blob id chunk of bytes => exact shut_takeBlob W id chunk of bytes s hs
  | done =>
    have hkeeps : Keeps (Shut W.crypto client) (update fun y => { y with gotDone := true }) :=
      shut_update fun _ => rfl
    exact hkeeps s hs
  | key seed => exact shut_takeKey hm s hs
  | earlier rows =>
    have hoffer : ∀ (y : Sync) (g : Generation), (y.offer g).blobsWanted = y.blobsWanted :=
      fun _ _ => rfl
    exact shut_update (fun y => foldl_blobsWanted hoffer rows y) s hs
  | wantEarlier wants =>
    have hkeeps : Keeps (Shut W.crypto client) (takeWantEarlier wants) :=
      keeps_bind keeps_get fun _ => shut_update fun _ => rfl
    exact hkeeps s hs
  | keysOf channel inst ks => exact shut_takeKeysOf hs hm

theorem stable_watched (W : World) (client : Client) :
    Stable W (Watched W.crypto client) where
  update _ hf := watched_of (fun _ _ => along_update _) (shut_update hf)
  hello _ _ := watched_of (fun _ hQ => along_queue hQ _) (shut_queue rfl)
  done := watched_of (fun _ hQ => along_queue hQ _) (shut_queue rfl)
  take m a := by
    refine watched_noted (fun Q hQ => along_takeUp hQ W m a) (fun _ => trivial) ?_
    intro s hs hout hm
    exact shut_takeUp (shut_note hs hout trivial) hout hm
  serve now o := by
    refine watched_noted (fun Q hQ => along_servePage hQ W now o) (fun _ => trivial) ?_
    intro s hs hout hnothing
    obtain ⟨hkeys, hpage⟩ := hnothing
    rw [hs.same] at hkeys hpage
    exact shut_serveNothing (shut_note hs hout trivial) hkeys hpage

/-- In a sync whose messages taken and pages served before a hello is let in are
harmless, nothing withheld is queued and nothing in the store is changed before. -/
theorem nothing_before_admission (W : World) (client : Client) (peer : PubKey)
    (entrust : Option Bytes32) (ts : List Turn)
    (hcalm : BeforeAdmission W.crypto (Event.harmless W.crypto)
      (run (stepped W) (begin client peer entrust) ts).history) :
    Always (fun s => BeforeAdmission W.crypto Event.allowed s.history ∧
      (admittedIn W.crypto s.history = true ∨ s.client = client))
      (stepped W) (begin client peer entrust) ts := by
  refine always_iff_prefixes.mpr fun pre hpre => ?_
  obtain ⟨rest, rfl⟩ := hpre
  have hstart : Shut W.crypto client (begin client peer entrust) := ⟨rfl, trivial, rfl, rfl⟩
  have hwatched : Watched W.crypto client (run (stepped W) (begin client peer entrust) pre) :=
    run_invariant (fun s t hs => (stable_watched W client).step t s hs) (Or.inr (Or.inr hstart)) pre
  cases hwatched with
  | inl hbad =>
    have hstill := run_invariant (fun s t hs => (stable_along W unharmless_cons).step t s hs)
      hbad rest
    rw [run, List.foldl_append] at hcalm
    exact absurd hcalm hstill
  | inr hgood =>
    cases hgood with
    | inl hopen => exact ⟨hopen.2, Or.inl hopen.1⟩
    | inr hshut => exact ⟨hshut.allowed, Or.inr hshut.same⟩

end Runs

section Example

def idle : World where
  crypto := .toy
  order := .asListed
  home _ _ := pure ()
  foldEntries t _ _ _ _ := pure t
  keepEarlier _ _ _ _ _ _ := pure 0
  blobsNamed _ _ _ _ := []
  keepBlob c _ _ := c

def holder : Client where
  me := 7
  device := 7
  seed := 6
  store := (⟨20, fun _ => none, fun _ _ => .empty⟩ : Store).putKey 9 1 5
  entries := ∅
  generations := ∅
  unread _ := 0
  blobs _ := none
  credential := none
  keptSeed := none
  elsewhere := []
  homes := []

/-- The exchange lists no device, and answers nothing else. -/
def unlisted : Answers := ⟨.ok ⟨100, []⟩, .error "no answer", none⟩

def turnOf (ms : List Message) : Turn where
  arrived := .ok (ms.map fun m => .message m unlisted)
  unopened := none
  taken := 10
  gone := none
  now := 100

/-- The account itself is at the other end and says so first. -/
theorem nothing_before_hello :
    Always (fun s => BeforeAdmission idle.crypto Event.allowed s.history ∧
      (admittedIn idle.crypto s.history = true ∨ s.client = holder)) (stepped idle)
      (begin holder 7 none)
      [turnOf [.hello 7 none], turnOf [.have' [], .want [(9, 0)]], turnOf []] :=
  nothing_before_admission idle holder 7 none _ (by decide +kernel)

/-- A stranger says what it has and what it wants, with no hello, and is sent the
channel's keys. -/
theorem keys_to_a_stranger : ¬ ∀ W client peer entrust ts,
    Always (fun s => BeforeAdmission W.crypto Event.allowed s.history ∧
      (admittedIn W.crypto s.history = true ∨ s.client = client)) (stepped W)
      (begin client peer entrust) ts := by
  intro hall
  have hrun := hall idle holder 8 none [turnOf [.have' [], .want [(9, 0)]], turnOf []]
  have hend := (always_iff_prefixes.mp hrun _ List.prefix_rfl).1
  have hshut : admittedIn idle.crypto (run (stepped idle) (begin holder 8 none)
      [turnOf [.have' [], .want [(9, 0)]], turnOf []]).history = false := by
    decide +kernel
  have hsent : (run (stepped idle) (begin holder 8 none)
      [turnOf [.have' [], .want [(9, 0)]], turnOf []]).history.any Event.hands = true := by
    decide +kernel
  obtain ⟨e, he, hands⟩ := List.any_eq_true.mp hsent
  have hallowed := beforeAdmission_mem hshut hend he
  cases e with
  | queued m => exact Bool.false_ne_true (hallowed.symm.trans hands)
  | took | served | wrote => cases hands

end Example

end Sqex.Chat.Sync
