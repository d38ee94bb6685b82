import Sqex.Exchange.Admin
import Sqex.Lib.Runs

/-! Whether an administrator's transaction is carried out whole, and what the trail says of it. -/
namespace Sqex.Admin
open Std Runs Devices Registry
variable {batch : List (Moment × Op)}

def Op.decides : Op → Bool
  | admissionApprove _ _ | admissionDeny _ => true
  | _ => false

def Op.writes (op : Op) : Bool := op.isMutation || op.decides

def Holds (s : Server) (m : Moment) : Op → Prop
  | .whitelistEnable => s.state.enabled = true
  | .whitelistDisable => s.state.enabled = false
  | .whitelistAdd key _ => key ∈ s.state.keys
  | .whitelistRemove key => key ∉ s.state.keys
  | .reloadAdmins => m.config.toOption = some s.admins
  | .admissionApprove device _ => device ∈ s.state.keys ∧ device ∉ s.admissions.pending
  | .admissionDeny device => device ∈ s.admissions.denied ∧ device ∉ s.admissions.pending
  | .nameAssign name account => s.names[name]?.map (·.account) = some account
  | .nameRelease name => name ∉ s.names
  | .peerAdd key _ => key ∈ s.state.peers
  | .peerRemove key => key ∉ s.state.peers
  | .deviceRegister c => s.devices.device[c.delegate]?.map (·.credential) = some c
  | .deviceRevoke r => r.device ∉ s.devices.device
  | .channelForget channel => channel ∈ s.state.refused ∧ channel ∉ s.channels.replicated
  | .channelAllow channel => channel ∉ s.state.refused
  | .whitelistList | .status | .auditTail _ | .admissionList | .nameList | .peerList
  | .channelRefused | .tailOpen _ _ => True

def Takes (site : Site) (admin : PubKey) (s : Server) (i : Moment × Op) : Prop :=
  (s.apply site admin i.1 i.2).2.ok = true ∧ Holds (s.apply site admin i.1 i.2).1 i.1 i.2

def Allows (site : Site) (s : Server) (i : Moment × Op) : Prop :=
  match i.2 with
  | .peerAdd key _ => (key ∈ s.state.peers ∨ s.state.peers.size < maxPeers) ∧ key ≠ site.me
  | .deviceRegister c =>
    i.1.works = true ∧ (s.devices.register site.crypto c.delegate c i.1.now).isOk = true
  | .deviceRevoke r => i.1.works = true ∧
      (s.devices.revoke site.crypto r.account r.device (some r) i.1.now).isOk = true
  | .channelForget channel =>
    if i.1.works then s.channels.orders channel = false else channel ∉ s.channels.replicated
  | .nameAssign _ _ => i.1.works = true
  | .nameRelease name => i.1.works = true ∨ name ∉ s.names
  | .reloadAdmins => i.1.config.isOk = true
  | .tailOpen _ _ => False
  | _ => True

variable {site : Site} {admin : PubKey} {s : Server} {m : Moment} {i : Moment × Op}

theorem register_credential {r t : Registry} {C : Crypto} {caller : PubKey} {c : Credential}
    {now : UInt64} (h : r.register C caller c now = .ok t) :
    t.device[c.delegate]?.map (·.credential) = some c := by
  obtain ⟨-, -, rfl⟩ := register_ok.mp h
  rw [device_enter, if_pos rfl, Option.map_some, (registered_credential _ c now).2.2]

theorem revoke_gone {r t : Registry} {C : Crypto} {caller device : PubKey}
    {attested : Option Revocation} {now : UInt64}
    (h : r.revoke C caller device attested now = .ok t) : device ∉ t.device := by
  have htook : (r.attempt C now (.revoke caller device attested)) = some t := by
    rw [attempt, h]
    rfl
  cases took htook
  simp [withdrawn]

theorem takes_iff : Takes site admin s i ↔ Allows site s i := by
  obtain ⟨m, op⟩ := i
  unfold Takes Allows
  dsimp only
  cases op with
  | whitelistEnable | whitelistDisable | whitelistList | status | admissionList | nameList
  | peerList | channelRefused => simp [Server.apply, Answer.ok, Holds]
  | whitelistAdd key label =>
    by_cases hkey : key ∈ s.state.keys
    · simp [Server.apply, State.add, Answer.ok, Holds, hkey]
    · simp [Server.apply, State.add, Answer.ok, Holds, hkey]
  | whitelistRemove key => simp [Server.apply, State.remove, Answer.ok, Holds]
  | reloadAdmins =>
    cases hconfig : m.config with
    | ok admins => simp [Server.apply, Answer.ok, Holds, hconfig, Except.toOption, Except.isOk,
        Except.toBool]
    | error e => simp [Server.apply, Answer.ok, hconfig, Except.isOk, Except.toBool]
  | auditTail n => simp [Server.apply, Answer.ok, Holds]
  | admissionApprove device label =>
    by_cases hkey : device ∈ s.state.keys
    · simp [Server.apply, State.add, Admissions.take, Answer.ok, Holds, hkey]
    · simp [Server.apply, State.add, Admissions.take, Answer.ok, Holds, hkey]
  | admissionDeny device =>
    simp [Server.apply, Admissions.deny, Admissions.take, Answer.ok, Holds]
  | nameAssign name account =>
    cases hworks : m.works with
    | true => simp [Server.apply, Server.assign, Answer.ok, Holds, hworks]
    | false => simp [Server.apply, Answer.ok, hworks]
  | nameRelease name =>
    cases hworks : m.works with
    | true | false => simp [Server.apply, Answer.ok, Holds, hworks]
  | peerAdd key label =>
    by_cases hkey : key ∈ s.state.peers
    · by_cases hme : key = site.me
      · subst hme
        simp [Server.apply, Answer.ok, hkey]
      · simp [Server.apply, State.addPeer, Answer.ok, Holds, hme, hkey]
    · by_cases hfull : maxPeers ≤ s.state.peers.size
      · simp [Server.apply, Answer.ok, hkey, hfull]
      · by_cases hme : key = site.me
        · subst hme
          simp [Server.apply, Answer.ok, hkey, hfull]
        · simp [Server.apply, State.addPeer, Answer.ok, Holds, hme, hkey, hfull]
          omega
  | peerRemove key => simp [Server.apply, State.removePeer, Answer.ok, Holds]
  | deviceRegister c =>
    cases hworks : m.works with
    | false => simp [Server.apply, Answer.ok, hworks]
    | true =>
      cases hregister : s.devices.register site.crypto c.delegate c m.now with
      | error e => simp [Server.apply, Answer.ok, hworks, hregister, Except.isOk, Except.toBool]
      | ok devices =>
        have hheld := register_credential hregister
        simp [Server.apply, Answer.ok, Holds, hworks, hregister, Except.isOk, Except.toBool, hheld]
  | deviceRevoke r =>
    cases hworks : m.works with
    | false => simp [Server.apply, Answer.ok, hworks]
    | true =>
      cases hrevoke : s.devices.revoke site.crypto r.account r.device (some r) m.now with
      | error e => simp [Server.apply, Answer.ok, hworks, hrevoke, Except.isOk, Except.toBool]
      | ok devices =>
        have hgone := revoke_gone hrevoke
        simp [Server.apply, Answer.ok, Holds, hworks, hrevoke, Except.isOk, Except.toBool, hgone]
  | channelForget channel =>
    cases hworks : m.works with
    | false => simp [Server.apply, State.refuseCopy, Answer.ok, Holds, hworks]
    | true =>
      cases horders : s.channels.orders channel with
      | true => simp [Server.apply, Answer.ok, hworks, horders]
      | false =>
        by_cases hcopy : channel ∈ s.channels.replicated
        · simp [Server.apply, State.refuseCopy, ChannelRows.forgetCopy, Answer.ok, Holds, hworks,
            horders, hcopy]
        · simp [Server.apply, State.refuseCopy, ChannelRows.forgetCopy, Answer.ok, Holds, hworks,
            horders, hcopy]
  | channelAllow channel => simp [Server.apply, State.allowCopy, Answer.ok, Holds]
  | tailOpen version kinds => simp [Server.apply, Answer.ok]

/-- The trail's entries are those of the ops that write and take effect, in order. -/
def Audited (site : Site) (admin : PubKey) :
    Server → List (Moment × Op) → List AuditEntry → Prop
  | _, [], entries => entries = []
  | s, i :: batch, entries =>
    (i.2.writes = true ∧ Takes site admin s i ∧
      ∃ rest, entries = Server.auditEntry site admin i.1 i.2 :: rest ∧
        Audited site admin (s.turn site admin i) batch rest) ∨
    (¬ (i.2.writes = true ∧ Takes site admin s i) ∧
      Audited site admin (s.turn site admin i) batch entries)

structure Carried (site : Site) (admin : PubKey) (s : Server) (batch : List (Moment × Op))
    (now : UInt64) (t : Server) : Prop where
  took : Each (Takes site admin) (Server.turn site admin) s batch
  written : site.path = true → t.written = t.state.persisted :: s.written
  transport : t.transport = t.allowed site now

/-- Nothing was changed: requests to be admitted at most ran out. -/
def Untouched (s t : Server) : Prop :=
  ∃ times : List UInt64, t = { s with admissions := times.foldl Admissions.lapse s.admissions }

theorem apply_kept (site : Site) (admin : PubKey) (s : Server) (m : Moment) (op : Op) :
    (s.apply site admin m op).1.recorded = s.recorded ∧
      (s.apply site admin m op).1.written = s.written := by
  unfold Server.apply
  cases op with
  | peerAdd key label =>
    dsimp only
    split_ifs <;> exact ⟨rfl, rfl⟩
  | deviceRegister c =>
    dsimp only
    split
    · split <;> exact ⟨rfl, rfl⟩
    · exact ⟨rfl, rfl⟩
  | deviceRevoke r =>
    dsimp only
    split
    · split <;> exact ⟨rfl, rfl⟩
    · exact ⟨rfl, rfl⟩
  | channelForget channel =>
    dsimp only
    split
    · exact ⟨rfl, rfl⟩
    · split <;> exact ⟨rfl, rfl⟩
  | reloadAdmins =>
    dsimp only
    split <;> exact ⟨rfl, rfl⟩
  | nameAssign name account =>
    dsimp only
    split_ifs <;> exact ⟨rfl, rfl⟩
  | nameRelease name =>
    dsimp only
    split_ifs <;> exact ⟨rfl, rfl⟩
  | _ => exact ⟨rfl, rfl⟩

theorem turn_recorded : (s.turn site admin i).recorded = s.recorded ++
    if i.2.isMutation then [Server.auditEntry site admin i.1 i.2] else [] := by
  have hkept := (apply_kept site admin s i.1 i.2).1
  unfold Server.turn
  split_ifs with hmutation
  · simp [Server.record, hkept]
  · simp [hkept]

theorem turn_written : (s.turn site admin i).written = s.written := by
  have hkept := (apply_kept site admin s i.1 i.2).2
  unfold Server.turn
  split_ifs
  · simp [Server.record, hkept]
  · simp [hkept]

theorem batch_recorded (site : Site) (admin : PubKey) (s : Server) (batch : List (Moment × Op)) :
    (batch.foldl (Server.turn site admin) s).recorded = s.recorded ++
      (batch.filter (·.2.isMutation)).map fun i => Server.auditEntry site admin i.1 i.2 := by
  induction batch generalizing s with
  | nil => simp
  | cons i batch ih =>
    rw [List.foldl_cons, ih, turn_recorded]
    cases hmutation : i.2.isMutation with
    | true | false => simp [hmutation]

theorem batch_written (site : Site) (admin : PubKey) (s : Server) (batch : List (Moment × Op)) :
    (batch.foldl (Server.turn site admin) s).written = s.written := by
  induction batch generalizing s with
  | nil => rfl
  | cons i batch ih => rw [List.foldl_cons, ih, turn_written]

theorem turn_untouched (hwrites : i.2.writes = false) : Untouched s (s.turn site admin i) := by
  obtain ⟨m, op⟩ := i
  cases op with
  | admissionList => exact ⟨[m.now], rfl⟩
  | whitelistList | status | nameList | peerList | channelRefused => exact ⟨[], rfl⟩
  | auditTail n | tailOpen version kinds => exact ⟨[], rfl⟩
  | _ => cases hwrites

theorem Untouched.trans {t u : Server} (h : Untouched s t) (h' : Untouched t u) :
    Untouched s u := by
  obtain ⟨times, rfl⟩ := h
  obtain ⟨later, rfl⟩ := h'
  exact ⟨times ++ later, by rw [List.foldl_append]⟩

theorem batch_untouched (h : ∀ i ∈ batch, i.2.writes = false) :
    Untouched s (batch.foldl (Server.turn site admin) s) := by
  induction batch generalizing s with
  | nil => exact ⟨[], rfl⟩
  | cons i batch ih =>
    have hfirst : Untouched s (s.turn site admin i) := turn_untouched (h i (by simp))
    exact hfirst.trans (ih fun j hj => h j (by simp [hj]))

theorem audited_iff_of_each {entries : List AuditEntry}
    (h : Each (Takes site admin) (Server.turn site admin) s batch) :
    Audited site admin s batch entries ↔
      entries = (batch.filter (·.2.writes)).map fun i => Server.auditEntry site admin i.1 i.2 := by
  induction batch generalizing s entries with
  | nil => rfl
  | cons i batch ih =>
    have hrest : ∀ entries, Audited site admin (s.turn site admin i) batch entries ↔
        entries = (batch.filter (·.2.writes)).map fun i =>
          Server.auditEntry site admin i.1 i.2 := fun _ => ih h.2
    unfold Audited
    cases hwrites : i.2.writes with
    | true => simp [h.1, hrest, hwrites]
    | false => simp [hrest, hwrites]

theorem Audited.of_nil (h : Audited site admin s batch []) :
    Each (fun s i => ¬ (i.2.writes = true ∧ Takes site admin s i)) (Server.turn site admin) s
      batch := by
  induction batch generalizing s with
  | nil => trivial
  | cons i batch ih =>
    obtain ⟨-, -, rest, hnil, -⟩ | ⟨hnot, hrest⟩ := h
    · cases hnil
    · exact ⟨hnot, ih hrest⟩

theorem each_exists_of_mem {ok : Server → Moment × Op → Prop} {step : Server → Moment × Op → Server}
    (h : Each ok step s batch) (hi : i ∈ batch) : ∃ t, ok t i := by
  induction batch generalizing s with
  | nil => cases hi
  | cons j batch ih =>
    cases List.mem_cons.mp hi with
    | inl heq => exact ⟨s, heq ▸ h.1⟩
    | inr hrest => exact ih h.2 hrest

theorem takes_of_decides (hdecides : i.2.decides = true) : Takes site admin s i := by
  rw [takes_iff]
  obtain ⟨m, op⟩ := i
  cases op with
  | admissionApprove device label | admissionDeny device => trivial
  | _ => cases hdecides

/-- What a transaction leaves, by whether anything in it is a mutation and the save works. -/
theorem execute_cases (site : Site) (admin : PubKey) (s : Server) (batch : List (Moment × Op))
    (saved : Bool) (now : UInt64) :
    let t := batch.foldl (Server.turn site admin) s
    let t' := (s.execute site admin batch saved now).1
    t'.recorded = t.recorded ∧
      (batch.any (·.2.isMutation) = false → t' = t) ∧
      (batch.any (·.2.isMutation) = true → (site.path = true → saved = true) →
        t'.transport = t'.allowed site now ∧
          (site.path = true → t'.written = t'.state.persisted :: s.written)) ∧
      (batch.any (·.2.isMutation) = true → site.path = true → saved = false →
        t'.written = s.written) := by
  have hwritten := batch_written site admin s batch
  unfold Server.execute
  dsimp only
  generalize batch.foldl (Server.turn site admin) s = t at hwritten
  cases batch.any (·.2.isMutation) with
  | false => simp
  | true =>
    unfold Server.save
    cases site.path with
    | false => exact ⟨rfl, nofun, fun _ _ => ⟨rfl, nofun⟩, nofun⟩
    | true =>
      cases saved with
      | false => simp [hwritten]
      | true => exact ⟨rfl, nofun, fun _ _ => ⟨rfl, fun _ => by rw [← hwritten]; rfl⟩, nofun⟩

theorem audited_nil (h : ∀ i ∈ batch, i.2.writes = false) :
    Audited site admin s batch [] := by
  induction batch generalizing s with
  | nil => rfl
  | cons i batch ih =>
    refine .inr ⟨fun hboth => ?_, ih fun j hj => h j (by simp [hj])⟩
    simp [h i (by simp)] at hboth

theorem not_mutation_of_decides {op : Op} (h : op.decides = true) : op.isMutation = false := by
  cases op <;> first | rfl | cases h

theorem decides_of_length
    (h : (batch.filter (·.2.isMutation)).length = (batch.filter (·.2.writes)).length) :
    ∀ i ∈ batch, i.2.decides = false := by
  intro i hi
  have hsub : (batch.filter (·.2.isMutation)).Sublist (batch.filter (·.2.writes)) :=
    List.monotone_filter_right batch fun j hj => by simp [Op.writes, hj]
  have hsame := hsub.eq_of_length h
  by_contra hdecides
  have hyes : i.2.decides = true := by simpa using hdecides
  have hin : i ∈ batch.filter (·.2.writes) := by simp [Op.writes, hi, hyes]
  rw [← hsame] at hin
  have hmutation : i.2.isMutation = true := (List.mem_filter.mp hin).2
  rw [not_mutation_of_decides hyes] at hmutation
  cases hmutation

/-- A transaction is carried out whole or not at all, and the trail says so, exactly where nothing
in it writes, or it decides no admission, nothing stands in any op's way and the save works. -/
theorem transaction_whole_iff (site : Site) (admin : PubKey) (s : Server)
    (batch : List (Moment × Op)) (saved : Bool) (now : UInt64) :
    let t := (s.execute site admin batch saved now).1
    ((Carried site admin s batch now t ∨ Untouched s t) ∧
        ∃ entries, t.recorded = s.recorded ++ entries ∧ Audited site admin s batch entries) ↔
      (∀ i ∈ batch, i.2.writes = false) ∨
        (∀ i ∈ batch, i.2.decides = false) ∧
          Each (Allows site) (Server.turn site admin) s batch ∧
            (site.path = true → saved = true) := by
  obtain ⟨hrecorded, hnone, hsaved, hlost⟩ :=
    execute_cases site admin s batch saved now
  intro t
  have hbatch := batch_recorded site admin s batch
  have htakes : Takes site admin = Allows site := by
    funext s i
    exact propext takes_iff
  constructor
  · rintro ⟨hwhole, entries, hentries, haudited⟩
    have hlogged := List.append_cancel_left (hentries.symm.trans (hrecorded.trans hbatch))
    cases hany : batch.any (·.2.isMutation) with
    | false =>
      have hnot : ∀ i ∈ batch, i.2.isMutation = false := by simpa using hany
      have hempty : batch.filter (·.2.isMutation) = [] := by simpa using hnot
      rw [hlogged, hempty] at haudited
      refine .inl fun i hi => ?_
      by_contra hwrites
      obtain ⟨u, hu⟩ := each_exists_of_mem haudited.of_nil hi
      have hdecides : i.2.decides = true := by simpa [Op.writes, hnot i hi] using hwrites
      exact hu ⟨by simpa using hwrites, takes_of_decides hdecides⟩
    | true =>
      cases hwhole with
      | inl hcarried =>
        have hall := (audited_iff_of_each hcarried.took).mp haudited
        have hlength := congrArg List.length (hlogged.symm.trans hall)
        rw [List.length_map, List.length_map] at hlength
        refine .inr ⟨decides_of_length hlength, htakes ▸ hcarried.took, fun hpath => ?_⟩
        by_contra hfails
        have hsame := hlost hany hpath (by simpa using hfails)
        have hlonger := congrArg List.length ((hcarried.written hpath).symm.trans hsame)
        simp at hlonger
      | inr huntouched =>
        obtain ⟨times, ht⟩ := huntouched
        have hsame : t.recorded = s.recorded := by rw [ht]
        have hnil : entries = [] := by
          rw [hsame] at hentries
          simpa using hentries
        obtain ⟨i, hi, hmutation⟩ := List.any_eq_true.mp hany
        have hmem : Server.auditEntry site admin i.1 i.2 ∈ entries := by
          rw [hlogged]
          exact List.mem_map_of_mem (List.mem_filter.mpr ⟨hi, hmutation⟩)
        simp [hnil] at hmem
  · have hquiet : (∀ i ∈ batch, i.2.writes = false) →
        (Carried site admin s batch now t ∨ Untouched s t) ∧
          ∃ entries, t.recorded = s.recorded ++ entries ∧ Audited site admin s batch entries := by
      intro h
      have hnot : ∀ i ∈ batch, i.2.isMutation = false := by
        intro i hi
        have hwrites := h i hi
        simp only [Op.writes, Bool.or_eq_false_iff] at hwrites
        exact hwrites.1
      have hempty : batch.filter (·.2.isMutation) = [] := by simpa using hnot
      have hsame : t = batch.foldl (Server.turn site admin) s := hnone (by simpa using hnot)
      refine ⟨.inr (hsame ▸ batch_untouched h), [], ?_, audited_nil h⟩
      rw [hsame, hbatch, hempty]
      rfl
    rintro (h | ⟨hdecides, hallows, hworks⟩)
    · exact hquiet h
    · cases hany : batch.any (·.2.isMutation) with
      | false =>
        have hnot : ∀ i ∈ batch, i.2.isMutation = false := by simpa using hany
        exact hquiet fun i hi => by simp [Op.writes, hnot i hi, hdecides i hi]
      | true =>
        obtain ⟨htransport, hwritten⟩ := hsaved hany hworks
        have htook : Each (Takes site admin) (Server.turn site admin) s batch := htakes ▸ hallows
        refine ⟨.inl ⟨htook, hwritten, htransport⟩, _, hrecorded.trans hbatch,
          (audited_iff_of_each htook).mpr ?_⟩
        congr 1
        refine List.filter_congr fun i hi => ?_
        simp [Op.writes, hdecides i hi]

def newSite : Site :=
  { crypto := .toy, me := 1, path := true, replicationPeers := [], lease := 3600
    base58 := fun k => toString k.toNat }

def newServer : Server where
  state := ⟨true, ∅, ∅, ∅, []⟩
  written := []
  transport := some []
  devices := .opened
  homes := ∅
  channels := ⟨∅, ∅⟩
  names := ∅
  admissions := ⟨∅, ∅⟩
  admins := []
  recorded := []

/-- A device that is admitted is on the list until the server stops: nothing writes that down,
tells the transport or records it. -/
theorem admitted_unsaved :
    let batch := [(⟨5, true, .ok []⟩, .admissionApprove 7 none)]
    let t := (newServer.execute newSite 2 batch true 5).1
    ¬ (Carried newSite 2 newServer batch 5 t ∨ Untouched newServer t) ∧
      ¬ ∃ entries, t.recorded = newServer.recorded ++ entries ∧
        Audited newSite 2 newServer batch entries := by
  intro batch t
  refine ⟨fun hwhole => ?_, fun htrail => ?_⟩
  · cases hwhole with
    | inl hcarried => cases hcarried.written rfl
    | inr huntouched =>
      obtain ⟨times, ht⟩ := huntouched
      have hkeys : t.state.keys = newServer.state.keys := by rw [ht]
      have hin : (7 : PubKey) ∈ t.state.keys := by decide
      have hout : (7 : PubKey) ∉ newServer.state.keys := by decide
      exact hout (hkeys ▸ hin)
  · obtain ⟨entries, hentries, haudited⟩ := htrail
    obtain rfl : [] = entries := hentries
    exact haudited.of_nil.1 ⟨rfl, takes_of_decides rfl⟩

end Sqex.Admin
