import Sqex.Exchange.Admin
import Sqex.Exchange.OriginRoster
import Sqex.Exchange.Successions

/-! An account carried over to its successor: the stores it is in are changed one after another,
the registry first, and any of them may fail, or the exchange stop, between two. -/
namespace Sqex.Handovers
open Std Runs Devices Devices.Registry Exchange

structure Stores where
  registry : Registry
  names : ExtTreeMap String Admin.NameRow
  profile : ExtTreeMap PubKey Bytes
  block : ExtTreeMap PubKey (ExtTreeSet PubKey)
  /-- Where an identity says it has moved. Kept in memory only. -/
  pointer : ExtTreeMap PubKey PubKey
  channels : ExtTreeMap Bytes32 Rows

inductive Request where
  | claim (me : PubKey) (proof : Proof)
  | handover (device : PubKey) (will : Will) (credentials : List Credential)

namespace Request

def account : Request → PubKey
  | claim _ proof => proof.account
  | handover _ will _ => will.account

def successor : Request → Option PubKey
  | claim _ proof => proof.successor
  | handover _ will _ => some will.successor

def stamp : Request → UInt64 × Bytes64
  | claim _ (.will w) => (w.issued, w.sig)
  | claim _ (.guardians policy _) => (policy.issued, policy.sig)
  | handover _ will _ => (will.issued, will.sig)

end Request

/-- Which of the stores take a write, and after how many steps the exchange stops, if it does. -/
structure Mishap where
  registry : Bool
  names : Bool
  blocks : Bool
  unblocks : Bool
  channels : Bool
  stop : Option Nat

def Mishap.none : Mishap := ⟨true, true, true, true, true, .none⟩

namespace Stores

section
variable (C : Crypto) (h : Host) (s t : Stores)

def blocked (account : PubKey) : ExtTreeSet PubKey := s.block[account]?.getD ∅

/-- Whether a key has a name, or is present in a channel ordered here. -/
def settled (who : PubKey) : Bool :=
  s.names.toList.any (fun n => n.2.account == who) ||
    s.channels.toList.any fun c => (c.2.roleOf who).isSome && c.2.originRow.isNone

def accept (now : UInt64) : Request → Option Registry
  | .claim me proof => Server.succeed C s.registry me proof
      ((proof.successor.map s.settled).getD false) now
  | .handover device will credentials =>
    Server.handover C s.registry device will credentials (s.settled will.successor) now

def succeedNames (account successor : PubKey) : Stores :=
  { s with names := s.names.map fun _ r =>
      if r.account = account then { r with account := successor } else r }

def moveBlocks (account successor : PubKey) : Stores :=
  let kept := (s.blocked account).filter fun x => decide (x ∈ s.blocked successor)
  { s with block :=
      (s.block.insert successor (s.blocked successor ∪ s.blocked account)).insert account kept }

def dropBlocks (account : PubKey) : Stores :=
  { s with block := s.block.erase account }

def setSuccessor (account successor : PubKey) : Stores :=
  { s with pointer := s.pointer.insert account successor }

def succeedAccount (C : Crypto) (h : Host) (channels : ExtTreeMap Bytes32 Rows)
    (account successor : PubKey) (stamp : UInt64 × Bytes64) (now : UInt64) :
    Option (ExtTreeMap Bytes32 Rows) :=
  let seat (channel : Bytes32) (r : Rows) :=
    (r.succeedAccount C h channel account successor stamp.1 stamp.2 now).toOption.map Prod.fst
  if channels.toList.all fun c => (seat c.1 c.2).isSome then
    some (channels.map fun channel r => (seat channel r).getD r)
  else none

/-- What is done after the registry has recorded it, each whatever became of those before. -/
def steps (account successor : PubKey) (stamp : UInt64 × Bytes64) (now : UInt64) (m : Mishap) :
    List (Stores → Stores) :=
  [fun s => if m.names then s.succeedNames account successor else s,
    fun s => if m.blocks then s.moveBlocks account successor else s,
    fun s => if m.unblocks then s.dropBlocks account else s,
    fun s => s.setSuccessor account successor,
    fun s => if m.channels then
      { s with channels :=
          (succeedAccount C h s.channels account successor stamp now).getD s.channels }
      else s]

def inOrder (fs : List (Stores → Stores)) (s : Stores) : Stores := fs.foldl (fun s f => f s) s

/-- The exchange stops, and starts again from its databases. -/
def restart : Stores := { s with pointer := ∅ }

def carry (now : UInt64) (req : Request) (m : Mishap) : Stores :=
  match s.accept C now req, req.successor with
  | some registry, some successor =>
    let rest := steps C h req.account successor req.stamp now m
    if m.registry then
      match m.stop with
      | none => inOrder rest { s with registry := registry }
      | some 0 => s.restart
      | some (n + 1) => (inOrder (rest.take n) { s with registry := registry }).restart
    else if m.stop.isSome then s.restart else s
  | _, _ => s

def NamesFollow (before after : ExtTreeMap String Admin.NameRow) (account successor : PubKey) :
    Prop :=
  (∀ (name : String) (r : Admin.NameRow), before[name]? = some r → r.account = account →
    after[name]? = some { r with account := successor }) ∧
  ∀ (name : String) (r : Admin.NameRow), after[name]? = some r → r.account ≠ account

def SeatsFollow (before after : ExtTreeMap Bytes32 Rows) (account successor : PubKey) : Prop :=
  (∀ (channel : Bytes32) (r : Rows), before[channel]? = some r → r.originRow = none →
    ∀ role, r.roleOf account = some role → ∃ r', after[channel]? = some r' ∧
      ∃ role', r'.roleOf successor = some role' ∧ (role = .admin → role' = .admin)) ∧
  ∀ (channel : Bytes32) (r : Rows), after[channel]? = some r → r.originRow = none →
    r.roleOf account = none

structure Followed (account successor : PubKey) : Prop where
  names : NamesFollow s.names t.names account successor
  seats : SeatsFollow s.channels t.channels account successor

structure Wholly (account successor : PubKey) : Prop extends Followed s t account successor where
  recorded : t.registry.successorOf account = some successor
  blocks : ∀ x ∈ s.blocked account, x ∈ t.blocked successor
  blockless : ∀ x, x ∉ t.blocked account
  profile : ∀ record, s.profile[account]? = some record → t.profile[successor]? = some record
  unprofiled : t.profile[account]? = none
  pointed : t.pointer[account]? = some successor

structure AsBefore : Prop where
  registry : t.registry = s.registry
  names : t.names = s.names
  profile : t.profile = s.profile
  block : t.block = s.block
  channels : t.channels = s.channels
  claimable : ∀ now req, t.accept C now req = s.accept C now req

/-- Where the registry has it, asking again or starting again leads to names and seats that
followed. -/
def Recovers (req : Request) (successor : PubKey) : Prop :=
  t.registry.successorOf req.account = some successor →
    (∀ now, Followed s (t.carry C h now req .none) req.account successor) ∧
      Followed s t.restart req.account successor

def Open (r : Rows) : Prop := ∃ c, r.channel = some c ∧ c.nextSeq ∉ r.entry

/-- Nothing that happens keeps a succession from being carried out, or it never begins. -/
def Spared (account successor : PubKey) (m : Mishap) : Prop :=
  (m.registry = false ∨ m.stop = some 0) ∨
    m.stop = none ∧
      (m.names = true ∨ ∀ (name : String) (r : Admin.NameRow), s.names[name]? = some r →
        r.account ≠ account) ∧
      (∀ x ∈ s.blocked account,
        if x ∈ s.blocked successor then m.unblocks = true else m.blocks = true) ∧
      s.profile[account]? = none ∧
      ∀ (channel : Bytes32) (r : Rows), s.channels[channel]? = some r → r.originRow = none →
        (r.roleOf account).isSome → m.channels = true ∧ Open r

end

variable {C : Crypto} {h : Host} {s t : Stores} {now : UInt64} {req : Request}
  {registry : Registry} {account successor : PubKey} {m : Mishap}

theorem accept_some (ha : s.accept C now req = some registry) : ∃ successor,
    req.successor = some successor ∧ req.account ≠ successor ∧
      s.registry.successorOf req.account = none ∧
      registry.successorOf req.account = some successor := by
  cases req with
  | claim me proof =>
    have hgoes := succeeds C s.registry
      (now, .succeed me proof ((proof.successor.map s.settled).getD false)) registry ha
    have htook : Took C s.registry now
        (.succeed me proof ((proof.successor.map s.settled).getD false)) registry := took ha
    cases htook with
    | succeed names proves may =>
      exact ⟨me, names, (mayTake_ne may).1, hgoes.1, hgoes.2.1⟩
  | handover device will credentials =>
    have hgoes := succeeds C s.registry
      (now, .handover device will credentials (s.settled will.successor)) registry ha
    have htook : Took C s.registry now
        (.handover device will credentials (s.settled will.successor)) registry := took ha
    cases htook with
    | handover hands => exact ⟨will.successor, rfl, (mayTake_ne hands.may).1, hgoes.1, hgoes.2.1⟩

theorem accept_none (hs : s.registry.successorOf req.account = some successor) :
    s.accept C now req = none := by
  obtain ⟨row, hrow, -⟩ := Option.map_eq_some_iff.mp hs
  cases req with
  | claim me proof => exact (closed hrow now me _).1 proof rfl
  | handover device will credentials => exact (closed hrow now device _).2 will credentials rfl

theorem carry_refused (hs : s.registry.successorOf req.account = some successor) :
    s.carry C h now req m = s := by
  unfold carry
  rw [accept_none hs]

/-- The block lists after both writes, as far as they work. -/
def blocksAfter (s : Stores) (m : Mishap) (account successor : PubKey) : Stores :=
  let moved := if m.blocks then s.moveBlocks account successor else s
  if m.unblocks then moved.dropBlocks account else moved

theorem carry_done (ha : s.accept C now req = some registry) (hs : req.successor = some successor)
    (hr : m.registry = true) (hstop : m.stop = none) :
    let t := s.carry C h now req m
    t.registry = registry ∧ t.profile = s.profile ∧
      t.names = (if m.names then s.succeedNames req.account successor else s).names ∧
      t.block = (s.blocksAfter m req.account successor).block ∧
      t.pointer = s.pointer.insert req.account successor ∧
      t.channels = if m.channels then
        (succeedAccount C h s.channels req.account successor req.stamp now).getD s.channels
        else s.channels := by
  unfold carry blocksAfter
  rw [ha, hs]
  simp only [hr, hstop, if_true, steps, inOrder, List.foldl_cons, List.foldl_nil]
  cases m.names <;> cases m.blocks <;> cases m.unblocks <;> cases m.channels <;>
    exact ⟨rfl, rfl, rfl, rfl, rfl, rfl⟩

theorem carry_stopped (ha : s.accept C now req = some registry)
    (hs : req.successor = some successor) (hr : m.registry = true) {n : Nat}
    (hstop : m.stop = some (n + 1)) :
    (s.carry C h now req m).registry = registry ∧ (s.carry C h now req m).pointer = ∅ := by
  have hkeeps : ∀ (fs : List (Stores → Stores)), (∀ f ∈ fs, ∀ u, (f u).registry = u.registry) →
      ∀ u, (inOrder fs u).registry = u.registry := by
    intro fs
    induction fs with
    | nil => exact fun _ _ => rfl
    | cons f fs ih =>
      intro hfs u
      exact (ih (fun g hg => hfs g (by simp [hg])) (f u)).trans (hfs f (by simp) u)
  unfold carry
  rw [ha, hs]
  simp only [hr, hstop, if_true]
  refine ⟨hkeeps _ (fun f hf u => ?_) _, rfl⟩
  have hmem := List.mem_of_mem_take hf
  simp only [steps, List.mem_cons, List.not_mem_nil, or_false] at hmem
  obtain rfl | rfl | rfl | rfl | rfl := hmem
  · cases m.names <;> rfl
  · cases m.blocks <;> rfl
  · cases m.unblocks <;> rfl
  · rfl
  · cases m.channels <;> rfl

section Stores
variable (hne : account ≠ successor)
include hne

theorem names_followed : NamesFollow s.names
      (if m.names then s.succeedNames account successor else s).names account successor ↔
    m.names = true ∨ ∀ (name : String) (r : Admin.NameRow), s.names[name]? = some r →
      r.account ≠ account := by
  cases m.names with
  | false =>
    simp only [Bool.false_eq_true, if_false, false_or]
    exact ⟨fun hboth => hboth.2, fun hnone =>
      ⟨fun name r hr hra => absurd hra (hnone name r hr), hnone⟩⟩
  | true =>
    simp only [if_true, true_or, iff_true]
    refine ⟨fun name r hr hra => ?_, fun name r hr => ?_⟩
    · simp [succeedNames, hr, hra]
    · simp only [succeedNames, ExtTreeMap.getElem?_map, Option.map_eq_some_iff] at hr
      obtain ⟨r', -, rfl⟩ := hr
      split_ifs with hra
      · exact hne.symm
      · exact hra

omit hne in
theorem blocked_move {x : PubKey} : (s.moveBlocks account successor).blocked x =
    if account = x then (s.blocked account).filter fun y => decide (y ∈ s.blocked successor)
    else if successor = x then s.blocked successor ∪ s.blocked account else s.blocked x := by
  unfold blocked moveBlocks
  simp only [lookup_insert]
  split_ifs <;> rfl

theorem blocks_followed :
    (∀ x ∈ s.blocked account, x ∈ (s.blocksAfter m account successor).blocked successor) ∧
      (∀ x, x ∉ (s.blocksAfter m account successor).blocked account) ↔
    ∀ x ∈ s.blocked account,
      if x ∈ s.blocked successor then m.unblocks = true else m.blocks = true := by
  have hmove : ∀ x, (s.moveBlocks account successor).blocked x =
      if account = x then (s.blocked account).filter fun y => decide (y ∈ s.blocked successor)
      else if successor = x then s.blocked successor ∪ s.blocked account
      else s.blocked x := fun _ => blocked_move
  have hdrop : ∀ (u : Stores) (x : PubKey), (u.dropBlocks account).blocked x =
      if account = x then ∅ else u.blocked x := by
    intro u x
    unfold blocked dropBlocks
    simp only [lookup_erase]
    split_ifs <;> rfl
  unfold blocksAfter
  cases m.blocks with
  | false =>
    cases m.unblocks with
    | false =>
      simp only [Bool.false_eq_true, if_false, ite_self, imp_false]
      exact ⟨fun hboth => hboth.2, fun hnone => ⟨fun x hx => absurd hx (hnone x), hnone⟩⟩
    | true =>
      simp only [if_true, Bool.false_eq_true, if_false, hdrop, hne, ExtTreeSet.not_mem_empty,
        not_false_eq_true, implies_true, and_true, if_false_right]
  | true =>
    cases m.unblocks with
    | false =>
      simp only [Bool.false_eq_true, if_true, if_false, hmove, hne, ExtTreeSet.mem_union_iff,
        ExtTreeSet.mem_filter, ExtTreeSet.get_eq, decide_eq_true_eq, exists_prop, not_and,
        if_false_left, and_true, and_iff_right_iff_imp]
      grind
    | true =>
      simp +contextual [hdrop, hmove, hne]

end Stores

section Channels
variable {channel : Bytes32} {r r' : Rows} {es : List Ordered} {stamp : UInt64 × Bytes64}
  {role : Role}

theorem seat_some (hhere : r.originRow = none) (hrole : r.roleOf account = some role) :
    r.succeedAccount C h channel account successor stamp.1 stamp.2 now =
      (r.moveMember account successor role now).writeSuccession C h channel account successor
        stamp.1 stamp.2 now := by
  unfold Rows.succeedAccount
  rw [hrole, hhere]

theorem seat_none (hnone : r.originRow = none → r.roleOf account = none) :
    r.succeedAccount C h channel account successor stamp.1 stamp.2 now = .ok (r, []) := by
  unfold Rows.succeedAccount
  cases horigin : r.originRow with
  | none => rw [hnone horigin]
  | some origin => cases r.roleOf account <;> rfl

theorem seat_ok_iff (hhere : r.originRow = none) (hrole : r.roleOf account = some role) :
    (∃ p, r.succeedAccount C h channel account successor stamp.1 stamp.2 now = .ok p) ↔
      Open r := by
  rw [seat_some hhere hrole]
  constructor
  · rintro ⟨⟨r', es⟩, hwrite⟩
    obtain ⟨c, e, -, happended⟩ := Rows.writeSuccession_ok.mp hwrite
    exact ⟨c, happended.channel, happended.free⟩
  · rintro ⟨c, hc, hfree⟩
    exact ⟨_, Rows.writeSuccession_ok.mpr ⟨c, _, rfl, ⟨hc, hfree, rfl, rfl⟩⟩⟩

theorem seat_moved (hne : account ≠ successor) (hhere : r.originRow = none)
    (hrole : r.roleOf account = some role)
    (hok : r.succeedAccount C h channel account successor stamp.1 stamp.2 now = .ok (r', es)) :
    r'.roleOf account = none ∧
      ∃ role', r'.roleOf successor = some role' ∧ (role = .admin → role' = .admin) := by
  rw [seat_some hhere hrole] at hok
  obtain ⟨hmember, -⟩ := Rows.writeSuccession_same hok
  have hrow := fun a => r.moveMember_member account successor a role now
  rw [← hmember] at hrow
  obtain ⟨hpresent, hmax, -⟩ := Rows.movedRow_fields role now r.member[successor]?
  refine ⟨?_, ?_⟩
  · simp [Rows.roleOf, hrow]
  · refine ⟨(Rows.movedRow role now r.member[successor]?).role, ?_, fun hadmin => ?_⟩
    · simp [Rows.roleOf, hrow, hne, hpresent]
    · rw [hmax, hadmin]
      cases Rows.roleIn r.member[successor]? <;> rfl

end Channels

theorem seat_isSome {channel : Bytes32} {r : Rows} {stamp : UInt64 × Bytes64} :
    ((r.succeedAccount C h channel account successor stamp.1 stamp.2 now).toOption.map
        Prod.fst).isSome = true ↔
      (r.originRow = none → (r.roleOf account).isSome → Open r) := by
  rw [Option.isSome_map]
  by_cases hseat : r.originRow = none ∧ (r.roleOf account).isSome
  · obtain ⟨hhere, hsome⟩ := hseat
    obtain ⟨role, hrole⟩ := Option.isSome_iff_exists.mp hsome
    have hopen : (∃ p, r.succeedAccount C h channel account successor stamp.1 stamp.2 now =
        .ok p) ↔ Open r := seat_ok_iff hhere hrole
    simp only [hhere, hsome, forall_const, ← hopen]
    cases r.succeedAccount C h channel account successor stamp.1 stamp.2 now with
    | error e | ok p => simp [Except.toOption]
  · rw [seat_none fun hhere => by simpa using fun hsome => hseat ⟨hhere, hsome⟩]
    exact iff_of_true rfl fun hhere hsome => absurd ⟨hhere, hsome⟩ hseat

theorem succeedAccount_some {channels : ExtTreeMap Bytes32 Rows} {stamp : UInt64 × Bytes64} :
    (succeedAccount C h channels account successor stamp now).isSome = true ↔
      ∀ (channel : Bytes32) (r : Rows), channels[channel]? = some r → r.originRow = none →
        (r.roleOf account).isSome → Open r := by
  have hall : (∀ c ∈ channels.toList, ((c.2.succeedAccount C h c.1 account successor stamp.1
      stamp.2 now).toOption.map Prod.fst).isSome = true) ↔
      ∀ (channel : Bytes32) (r : Rows), channels[channel]? = some r → r.originRow = none →
        (r.roleOf account).isSome → Open r := by
    simp only [seat_isSome, Prod.forall, ExtTreeMap.mem_toList_iff_getElem?_eq_some]
  unfold succeedAccount
  dsimp only
  rw [← hall, ← List.all_eq_true]
  split_ifs with htakes
  · simpa using htakes
  · simpa using htakes

theorem succeedAccount_lookup {channels channels' : ExtTreeMap Bytes32 Rows}
    {stamp : UInt64 × Bytes64}
    (hsome : succeedAccount C h channels account successor stamp now = some channels')
    (channel : Bytes32) : ∀ r' : Rows, channels'[channel]? = some r' ↔
      ∃ (r : Rows) (es : List Ordered), channels[channel]? = some r ∧
        r.succeedAccount C h channel account successor stamp.1 stamp.2 now = .ok (r', es) := by
  have hopen : (succeedAccount C h channels account successor stamp now).isSome = true ↔ _ :=
    succeedAccount_some
  rw [hsome] at hopen
  unfold succeedAccount at hsome
  dsimp only at hsome
  split_ifs at hsome
  obtain rfl := Option.some.inj hsome
  intro r'
  rw [ExtTreeMap.getElem?_map]
  cases hrow : channels[channel]? with
  | none => simp
  | some r =>
    have htakes : ((r.succeedAccount C h channel account successor stamp.1 stamp.2
        now).toOption.map Prod.fst).isSome = true := seat_isSome.mpr (hopen.mp rfl channel r hrow)
    cases hseat : r.succeedAccount C h channel account successor stamp.1 stamp.2 now with
    | error e => simp [hseat, Except.toOption] at htakes
    | ok p => simp [Except.toOption, hseat, Prod.ext_iff]

theorem seats_stay {channels : ExtTreeMap Bytes32 Rows} :
    SeatsFollow channels channels account successor ↔
      ∀ (channel : Bytes32) (r : Rows), channels[channel]? = some r → r.originRow = none →
        r.roleOf account = none := by
  refine ⟨fun hboth => hboth.2, fun hnone => ⟨fun channel r hr hhere role hrole => ?_, hnone⟩⟩
  rw [hnone channel r hr hhere] at hrole
  cases hrole

theorem seats_moved {channels channels' : ExtTreeMap Bytes32 Rows} {stamp : UInt64 × Bytes64}
    (hne : account ≠ successor)
    (hsome : succeedAccount C h channels account successor stamp now = some channels') :
    SeatsFollow channels channels' account successor := by
  have hlookup := succeedAccount_lookup hsome
  refine ⟨fun channel r hr hhere role hrole => ?_, fun channel r' hr' hhere' => ?_⟩
  · have hopen := succeedAccount_some.mp (by rw [hsome]; rfl) channel r hr hhere (by simp [hrole])
    obtain ⟨⟨r', es⟩, hok⟩ := (seat_ok_iff hhere hrole).mpr hopen
    exact ⟨r', (hlookup channel r').mpr ⟨r, es, hr, hok⟩, (seat_moved hne hhere hrole hok).2⟩
  · obtain ⟨r, es, hr, hok⟩ := (hlookup channel r').mp hr'
    by_cases hhere : r.originRow = none
    · cases hrole : r.roleOf account with
      | some role => exact (seat_moved hne hhere hrole hok).1
      | none =>
        rw [seat_none fun _ => hrole] at hok
        cases hok
        exact hrole
    · rw [seat_none fun hnot => absurd hnot hhere] at hok
      cases hok
      exact absurd hhere' hhere

theorem seats_followed (C : Crypto) (h : Host) (s : Stores) (m : Mishap) (now : UInt64)
    (stamp : UInt64 × Bytes64) (hne : account ≠ successor) :
    SeatsFollow s.channels (if m.channels then
        (succeedAccount C h s.channels account successor stamp now).getD s.channels
      else s.channels) account successor ↔
    ∀ (channel : Bytes32) (r : Rows), s.channels[channel]? = some r → r.originRow = none →
      (r.roleOf account).isSome → m.channels = true ∧ Open r := by
  cases m.channels with
  | false => simp [seats_stay]
  | true =>
    have hopen : (succeedAccount C h s.channels account successor stamp now).isSome = true ↔ _ :=
      succeedAccount_some
    simp only [if_true, true_and, ← hopen]
    cases hsome : succeedAccount C h s.channels account successor stamp now with
    | some channels' => simp [seats_moved hne hsome]
    | none =>
      rw [hsome] at hopen
      simp only [Option.getD_none, seats_stay, Option.isSome_none, Bool.false_eq_true, iff_false]
      intro hnone
      have hvacuous := hopen.mpr fun channel r hr hhere hseat => by
        simp [hnone channel r hr hhere] at hseat
      cases hvacuous

/-- What an accepted request is to come to: the account is wholly its successor's, or as before,
and where the registry has it the rest follows in the end. -/
def Carried (C : Crypto) (h : Host) (s : Stores) (now : UInt64) (req : Request) (m : Mishap) :
    Prop :=
  ∀ registry successor, s.accept C now req = some registry → req.successor = some successor →
    (Wholly s (s.carry C h now req m) req.account successor ∨
        AsBefore C s (s.carry C h now req m)) ∧
      Recovers C h s (s.carry C h now req m) req successor

theorem wholly_iff (ha : s.accept C now req = some registry)
    (hs : req.successor = some successor) (hr : m.registry = true) (hstop : m.stop = none) :
    Wholly s (s.carry C h now req m) req.account successor ↔ Spared s req.account successor m := by
  obtain ⟨successor', hsuccessor, hne, -, hrecorded⟩ := accept_some ha
  obtain rfl := Option.some.inj (hs.symm.trans hsuccessor)
  obtain ⟨hregistry, hprofile, hnames, hblock, hpointer, hchannels⟩ :=
    carry_done (h := h) ha hs hr hstop
  have hblocked : ∀ x, (s.carry C h now req m).blocked x =
      (s.blocksAfter m req.account successor).blocked x := fun x => by rw [blocked, hblock, blocked]
  have hnamed := names_followed (s := s) (m := m) hne
  have hblocks := blocks_followed (s := s) (m := m) hne
  have hseats := seats_followed C h s m now req.stamp hne
  rw [← hnames] at hnamed
  rw [← hchannels] at hseats
  unfold Spared
  simp only [hr, hstop, ← hnamed, ← hblocks, ← hseats, ← hblocked]
  constructor
  · intro hw
    refine .inr ⟨trivial, hw.names, ⟨hw.blocks, hw.blockless⟩, ?_, hw.seats⟩
    rw [← hprofile]
    exact hw.unprofiled
  · rintro (hnever | ⟨-, hn, hb, hp, hc⟩)
    · simp at hnever
    · refine ⟨⟨hn, hc⟩, ?_, hb.1, hb.2, fun record hrecord => ?_, ?_, ?_⟩
      · rw [hregistry, hrecorded]
      · rw [hp] at hrecord
        cases hrecord
      · rw [hprofile, hp]
      · rw [hpointer, lookup_insert, if_pos rfl]

theorem carry_unrecorded (C : Crypto) (h : Host) (s : Stores) (now : UInt64) (req : Request)
    (hnever : m.registry = false ∨ m.stop = some 0) :
    s.carry C h now req m = s ∨ s.carry C h now req m = s.restart := by
  unfold carry
  split
  · cases hr : m.registry with
    | false =>
      cases m.stop with
      | none => exact .inl rfl
      | some n => exact .inr rfl
    | true =>
      have hstop : m.stop = some 0 := by simpa [hr] using hnever
      rw [hstop]
      exact .inr rfl
  · exact .inl rfl

theorem asBefore_self (C : Crypto) (s : Stores) : AsBefore C s s :=
  ⟨rfl, rfl, rfl, rfl, rfl, fun _ _ => rfl⟩

theorem asBefore_restart (C : Crypto) (s : Stores) : AsBefore C s s.restart :=
  ⟨rfl, rfl, rfl, rfl, rfl, fun _ req => by cases req <;> rfl⟩

theorem carried_iff (ha : s.accept C now req = some registry)
    (hs : req.successor = some successor) :
    (Wholly s (s.carry C h now req m) req.account successor ∨
          AsBefore C s (s.carry C h now req m)) ∧
        Recovers C h s (s.carry C h now req m) req successor ↔
      Spared s req.account successor m := by
  obtain ⟨successor', hsuccessor, hne, hfresh, hrecorded⟩ := accept_some ha
  obtain rfl := Option.some.inj (hs.symm.trans hsuccessor)
  -- What is recorded is not as before.
  have hnot : (s.carry C h now req m).registry = registry →
      ¬ AsBefore C s (s.carry C h now req m) := by
    intro hregistry hbefore
    rw [← hregistry, hbefore.registry, hfresh] at hrecorded
    cases hrecorded
  have hrecovers : Wholly s (s.carry C h now req m) req.account successor →
      Recovers C h s (s.carry C h now req m) req successor := by
    intro hw hheld
    refine ⟨fun later => ?_, hw.names, hw.seats⟩
    rw [carry_refused hheld]
    exact hw.toFollowed
  have hunrecorded : m.registry = false ∨ m.stop = some 0 →
      ((Wholly s (s.carry C h now req m) req.account successor ∨
            AsBefore C s (s.carry C h now req m)) ∧
          Recovers C h s (s.carry C h now req m) req successor ↔
        Spared s req.account successor m) := by
    intro hnever
    have hbefore : AsBefore C s (s.carry C h now req m) := by
      obtain heq | heq := carry_unrecorded C h s now req hnever
      · rw [heq]
        exact asBefore_self C s
      · rw [heq]
        exact asBefore_restart C s
    refine iff_of_true ⟨.inr hbefore, fun hheld => ?_⟩ (.inl hnever)
    rw [hbefore.registry, hfresh] at hheld
    cases hheld
  cases hr : m.registry with
  | false => exact hunrecorded (.inl hr)
  | true =>
    cases hstop : m.stop with
    | none =>
      have hwhole := wholly_iff (h := h) ha hs hr hstop
      have hregistry := (carry_done (h := h) ha hs hr hstop).1
      rw [← hwhole]
      constructor
      · exact fun hboth => hboth.1.resolve_right (hnot hregistry)
      · exact fun hw => ⟨.inl hw, hrecovers hw⟩
    | some n =>
      cases n with
      | zero => exact hunrecorded (.inr hstop)
      | succ n =>
        obtain ⟨hregistry, hpointer⟩ := carry_stopped (h := h) ha hs hr hstop
        refine iff_of_false (fun hboth => ?_) fun hspared => ?_
        · cases hboth.1 with
          | inl hw => simpa [hpointer] using hw.pointed
          | inr hbefore => exact hnot hregistry hbefore
        · simp [Spared, hr, hstop] at hspared

/-- What an exchange does: it answers a request, starts again, or does anything else. -/
inductive Event where
  | request (now : UInt64) (req : Request) (m : Mishap)
  | restart
  | other (f : Stores → Stores)

def step (C : Crypto) (h : Host) (s : Stores) : Event → Stores
  | .request now req m => s.carry C h now req m
  | .restart => s.restart
  | .other f => f s

/-- In every run each accepted request carries the account across whole, or not at all, exactly
where nothing keeps any of them from being carried out. -/
theorem accounts_carried_whole (C : Crypto) (h : Host) (s : Stores) (events : List Event) :
    Each (fun s e => ∀ now req m, e = .request now req m → Carried C h s now req m) (step C h) s
        events ↔
      Each (fun s e => ∀ now req m, e = .request now req m → ∀ registry successor,
        s.accept C now req = some registry → req.successor = some successor →
          Spared s req.account successor m) (step C h) s events := by
  have hsame : ∀ (s : Stores) (e : Event),
      (∀ now req m, e = .request now req m → Carried C h s now req m) ↔
        ∀ now req m, e = .request now req m → ∀ registry successor,
          s.accept C now req = some registry → req.successor = some successor →
            Spared s req.account successor m := by
    intro s e
    constructor
    · exact fun hc now req m he registry successor ha hs =>
        (carried_iff ha hs).mp (hc now req m he registry successor ha hs)
    · exact fun hc now req m he registry successor ha hs =>
        (carried_iff ha hs).mpr (hc now req m he registry successor ha hs)
  simp only [hsame]

section Edges

def founded : Stores where
  registry := .opened
  names := (∅ : ExtTreeMap String Admin.NameRow).insert "ada" ⟨History.account, 5, 5, false⟩
  profile := ∅
  block := ∅
  pointer := ∅
  channels := ∅

/-- The exchange stops once the registry has the claim: the name stays, and the claim that would
move it is refused. -/
theorem claim_left_half_done :
    let req := Request.claim heir (.will bequeathed)
    let stopped : Mishap := { Mishap.none with stop := some 1 }
    (founded.carry .toy ⟨7, none, 0⟩ 30 req stopped).registry.successorOf History.account =
        some heir ∧
      ¬ Carried .toy ⟨7, none, 0⟩ founded 30 req stopped := by
  intro req stopped
  have haccept : (founded.accept .toy 30 req).isSome = true := by decide +kernel
  obtain ⟨registry, ha⟩ := Option.isSome_iff_exists.mp haccept
  obtain ⟨successor, hs, -, -, hrecorded⟩ := accept_some ha
  obtain rfl : heir = successor := Option.some.inj hs
  refine ⟨?_, fun hcarried => ?_⟩
  · rw [(carry_stopped ha hs rfl rfl).1]
    exact hrecorded
  · have hspared := (carried_iff ha hs).mp (hcarried registry heir ha hs)
    simp [Spared, stopped, Mishap.none] at hspared

end Edges

end Stores
end Sqex.Handovers
