import Sqex.Chat.Sync

/-! What an invariant of a sync is asked of. Every call adds to the history and takes
nothing from it; a step keeps what the few calls it is made of keep. -/
namespace Sqex.Chat.Sync
open Call

theorem keeps_answered {α : Type} {I : Syncing → Prop} (a : Except String α) :
    Keeps I (answered a) := by
  cases a with
  | ok a => exact keeps_pure a
  | error e => exact keeps_fail e

section Growing
variable {Q : List Event → Prop} (hQ : ∀ e h, Q h → Q (e :: h)) {α : Type}

abbrev Along (Q : List Event → Prop) (s : Syncing) : Prop := Q s.history

theorem along_update (f : Sync → Sync) : Keeps (Along Q) (update f) := fun _ h => h

theorem along_failed (why : String) : Keeps (Along Q) (failed why) := along_update _

theorem along_count (f : Progress → Progress) : Keeps (Along Q) (count f) := along_update _

include hQ

section
variable (W : World) (channel inst : Bytes32) (keys : List (UInt32 × Bytes32))

theorem along_note (e : Syncing → Event) : Keeps (Along Q) (note e) :=
  fun s h => hQ (e s) s.history h

theorem along_queue (m : Message) : Keeps (Along Q) (queue m) :=
  keeps_bind (along_update _) fun _ => along_note hQ _

theorem along_calling (m : Call String Client α) : Keeps (Along Q) (calling m) :=
  fun s h => hQ _ s.history h

theorem along_writing (f : Client → Client) : Keeps (Along Q) (writing f) :=
  along_calling hQ _

theorem along_giveKey : Keeps (Along Q) giveKey := by
  refine keeps_bind keeps_get fun s => ?_
  cases s.sync.entrust with
  | none => exact keeps_pure ()
  | some seed =>
    refine keeps_bind (along_update _) fun _ => ?_
    exact keeps_bind (along_queue hQ _) fun _ => along_update _

theorem along_welcome : Keeps (Along Q) welcome := by
  refine keeps_bind (along_giveKey hQ) fun _ => keeps_bind keeps_get fun s => ?_
  exact keeps_bind (keeps_doIf (along_queue hQ _)) fun _ => along_queue hQ _

theorem along_takeHello (account : PubKey) (credential : Option Credential) (a : Answers) :
    Keeps (Along Q) (takeHello W account credential a) := by
  refine keeps_bind keeps_get fun s => keeps_ite (along_failed _) ?_
  refine keeps_bind (keeps_answered _) fun devices => ?_
  dsimp only
  split
  · exact along_failed _
  · exact along_welcome hQ

theorem along_takeHave (theirs : List Held) : Keeps (Along Q) (takeHave W theirs) := by
  refine keeps_bind keeps_get fun s => keeps_bind (along_update _) fun _ => ?_
  refine keeps_bind (keeps_doIf (along_queue hQ _)) fun _ => ?_
  exact keeps_bind (along_queue hQ _) fun _ => along_update _

theorem along_takeEachKey : ∀ fresh, Keeps (Along Q) (takeEachKey channel fresh keys) := by
  induction keys with
  | nil => exact fun fresh => keeps_pure fresh
  | cons k keys ih =>
    intro fresh
    refine keeps_bind keeps_get fun s => keeps_bind (along_writing hQ _) fun _ => ?_
    exact keeps_bind (along_count _) fun _ => ih _

theorem along_takeKeys : Keeps (Along Q) (takeKeys channel keys) := by
  refine keeps_bind (along_takeEachKey hQ channel keys false) fun fresh => ?_
  refine keeps_bind keeps_get fun s => ?_
  exact keeps_bind (keeps_doIf (along_writing hQ _)) fun _ => along_count _

theorem along_generationFor (origin : PubKey) :
    Keeps (Along Q) (generationFor channel inst origin) := by
  refine keeps_bind keeps_get fun s => ?_
  cases s.client.generationOf channel inst with
  | some g => exact keeps_pure g
  | none => exact along_calling hQ _

theorem along_takeKeysOf : Keeps (Along Q) (takeKeysOf channel inst keys) := by
  refine keeps_bind keeps_get fun s => ?_
  cases s.sync.asked (channel, inst) with
  | none => exact keeps_pure ()
  | some origin =>
    refine keeps_bind (along_generationFor hQ channel inst origin) fun g => ?_
    exact keeps_forEach (fun k => keeps_bind (along_writing hQ _) fun _ => along_count _) keys

theorem along_importEarlier (origin : PubKey) (entries : List Entry) (a : Answers) :
    Keeps (Along Q) (importEarlier W channel inst origin entries a) :=
  keeps_ite (keeps_pure 0)
    (keeps_bind (along_generationFor hQ channel inst origin) fun _ => along_calling hQ _)

theorem along_lookAt (a : Answers) : Keeps (Along Q) (lookAt W channel a) := by
  refine keeps_bind (keeps_answered _) fun info => keeps_bind keeps_get fun s => ?_
  exact keeps_bind (keeps_doIf (along_calling hQ _)) fun _ => keeps_pure info

theorem along_importLive (entries : List Entry) (a : Answers) :
    Keeps (Along Q) (importLive W channel inst entries a) := by
  refine keeps_ite (keeps_pure 0) (keeps_bind keeps_get fun s => ?_)
  refine keeps_bind (keeps_failIf _) fun _ =>
    keeps_bind (along_lookAt hQ W channel a) fun info => ?_
  refine keeps_bind (keeps_failIf _) fun _ => keeps_bind (along_calling hQ _) fun t => ?_
  exact keeps_bind (along_update _) fun _ => keeps_bind keeps_get fun _ => keeps_pure _

end

omit hQ in
theorem along_imported (W : World) (channel : Bytes32) (generation : Option UInt64)
    (entries : List Entry) (n messages : Nat) :
    Keeps (Along Q) (imported W channel generation entries n messages) :=
  keeps_bind (along_count _) fun _ => keeps_bind keeps_get fun _ => along_update _

theorem along_takeEntries (W : World) (channel inst : Bytes32) (entries : List Entry)
    (a : Answers) : Keeps (Along Q) (takeEntries W channel inst entries a) := by
  refine keeps_bind keeps_get fun s => ?_
  cases s.sync.asked (channel, inst) with
  | some origin =>
    refine keeps_bind keeps_get fun s => ?_
    refine keeps_bind (along_importEarlier hQ W channel inst origin entries a) fun n => ?_
    exact keeps_bind keeps_get fun s => along_imported W channel _ entries n _
  | none =>
    refine keeps_bind keeps_get fun s => ?_
    refine keeps_bind (along_importLive hQ W channel inst entries a) fun n => ?_
    exact keeps_bind keeps_get fun s => along_imported W channel _ entries n _

theorem along_takeBlob (W : World) (id : Bytes32) (chunk of : UInt32) (bytes : Bytes) :
    Keeps (Along Q) (takeBlob W id chunk of bytes) := by
  refine keeps_bind keeps_get fun s => keeps_ite (keeps_pure ()) ?_
  refine keeps_ite (keeps_pure ()) ?_
  unfold takePart
  split
  · exact along_update _
  · refine keeps_bind (along_update _) fun _ => keeps_doIf ?_
    refine keeps_bind (along_writing hQ _) fun _ => ?_
    exact keeps_bind (along_update _) fun _ => along_count _

theorem along_takeKey (C : Crypto) (seed : Bytes32) : Keeps (Along Q) (takeKey C seed) := by
  refine keeps_bind keeps_get fun s => keeps_ite (along_failed _) ?_
  exact keeps_bind (keeps_doIf (along_writing hQ _)) fun _ => along_update _

theorem along_takeUp (W : World) (m : Message) (a : Answers) :
    Keeps (Along Q) (takeUp W m a) := by
  cases m with
  | hello account credential => exact along_takeHello hQ W account credential a
  | have' theirs => exact along_takeHave hQ W theirs
  | want wants => exact along_update _
  | entries channel inst entries => exact along_takeEntries hQ W channel inst entries a
  | keys channel keys => exact along_takeKeys hQ channel keys
  | blob id chunk of bytes => exact along_takeBlob hQ W id chunk of bytes
  | done => exact along_update _
  | key seed => exact along_takeKey hQ W.crypto seed
  | earlier rows => exact along_update _
  | wantEarlier wants => exact keeps_bind keeps_get fun _ => along_update _
  | keysOf channel inst keys => exact along_takeKeysOf hQ channel inst keys

theorem along_serveKeys (o : Owed) : Keeps (Along Q) (serveKeys o) := by
  refine keeps_bind keeps_get fun s => keeps_doIf ?_
  exact keeps_bind (along_update _) fun _ => keeps_doIf (along_queue hQ _)

theorem along_serveBlob (id : Bytes32) : Keeps (Along Q) (serveBlob id) :=
  keeps_bind keeps_get fun _ => keeps_forEach (fun _ => along_queue hQ _) _

theorem along_servePage (W : World) (now : UInt64) (o : Owed) :
    Keeps (Along Q) (servePage W now o) := by
  refine keeps_bind (along_serveKeys hQ o) fun _ => keeps_bind keeps_get fun s => ?_
  refine keeps_bind (keeps_doIf (keeps_bind (along_queue hQ _) fun _ => along_count _)) fun _ => ?_
  exact keeps_bind (keeps_forEach (along_serveBlob hQ) _) fun _ => along_update _

end Growing

/-- What a step asks of an invariant: to be kept by the few calls it is made of. -/
structure Stable (W : World) (I : Syncing → Prop) : Prop where
  update : ∀ f, (∀ y, (f y).blobsWanted = y.blobsWanted) → Keeps I (update f)
  hello : ∀ account credential, Keeps I (queue (.hello account credential))
  done : Keeps I (queue .done)
  take : ∀ m a, Keeps I (take W m a)
  serve : ∀ now o, Keeps I (serve W now o)

namespace Stable
variable {W : World} {I : Syncing → Prop} (h : Stable W I)
include h

theorem failed (why : String) : Keeps I (failed why) := h.update _ fun _ => rfl

theorem takeAll (inbox : List Arrival) : Keeps I (takeAll W inbox) := by
  induction inbox with
  | nil => exact keeps_pure true
  | cons arrival rest ih =>
    cases arrival with
    | tooLong len => exact keeps_fail _
    | malformed text => exact keeps_bind (h.update _ fun _ => rfl) fun _ => keeps_fail text
    | message m a =>
      refine keeps_bind (h.update _ fun _ => rfl) fun _ => ?_
      refine keeps_bind (keeps_attempt (h.take m a)) fun went => keeps_bind keeps_get fun s => ?_
      cases went with
      | error e => exact keeps_bind (h.failed e) fun _ => keeps_pure false
      | ok u => exact keeps_ite (keeps_pure false) ih

theorem trade (t : Turn) : Keeps I (trade W t) := by
  have hserve : Keeps I (serveNext W t.now) := by
    refine keeps_bind keeps_get fun s => ?_
    cases s.sync.owed with
    | nil => exact keeps_pure ()
    | cons o rest => exact keeps_doIf (h.serve t.now o)
  have hdone : Keeps I sayDone := by
    refine keeps_bind keeps_get fun s => keeps_doIf ?_
    exact keeps_bind (h.done) fun _ => h.update _ fun _ => rfl
  have hsend : Keeps I (sendOut t) := by
    refine keeps_bind keeps_get fun s => keeps_bind (h.update _ fun _ => rfl) fun _ => ?_
    cases t.gone with
    | none => exact keeps_pure ()
    | some e => exact keeps_doIf (keeps_bind (h.failed _) fun _ => keeps_fail e)
  have hfinish : Keeps I finish := by
    refine keeps_bind keeps_get fun s => keeps_ite ?_ (keeps_pure true)
    exact keeps_bind (h.update _ fun _ => rfl) fun _ => keeps_pure false
  refine keeps_bind hserve fun _ => keeps_bind hdone fun _ => ?_
  exact keeps_bind hsend fun _ => hfinish

theorem receive (t : Turn) : Keeps I (receive W t) := by
  unfold Sync.receive
  cases t.arrived with
  | error e => exact keeps_bind (h.failed _) fun _ => keeps_fail e
  | ok arrived =>
    refine keeps_bind (h.update _ fun _ => rfl) fun _ => ?_
    cases t.unopened with
    | some e => exact keeps_bind (h.failed _) fun _ => keeps_pure false
    | none =>
      refine keeps_bind keeps_get fun s => keeps_bind (h.takeAll s.sync.inbox) fun more => ?_
      exact keeps_ite (h.trade t) (keeps_pure false)

theorem step (t : Turn) : Keeps I (step W t) := by
  refine keeps_bind keeps_get fun s => ?_
  cases s.sync.phase with
  | finished | failed => exact keeps_pure false
  | greeting =>
    refine keeps_bind (keeps_bind keeps_get fun s => ?_) fun _ => h.receive t
    exact keeps_bind (h.hello _ _) fun _ => h.update _ fun _ => rfl
  | listing | trading => exact h.receive t

end Stable

theorem stable_along (W : World) {Q : List Event → Prop} (hQ : ∀ e h, Q h → Q (e :: h)) :
    Stable W (Along Q) where
  update _ _ := along_update _
  hello _ _ := along_queue hQ _
  done := along_queue hQ _
  take m a := keeps_bind (along_note hQ _) fun _ => along_takeUp hQ W m a
  serve now o := keeps_bind (along_note hQ _) fun _ => along_servePage hQ W now o

end Sqex.Chat.Sync
