import Sqex.Lib.Runs
import Sqex.Proto.Agreement

/-! Devices of an agreed channel: how each comes to hold a chain, and that all of them
stand where its founder's does. -/
namespace Sqex.Agreed
open Agreement

/-- An entry of the channel's log as a device meets it, and the secret it was sent. -/
structure Heard where
  account : PubKey
  device : PubKey
  body : Bytes
  secret : Bytes32

structure Sent where
  commit : Commit
  device : PubKey
  secret : Bytes32

def Sent.heard (p : Sent) : Heard := ⟨p.commit.committer, p.device, p.commit.encode, p.secret⟩

def membersAfter (c : Commit) (members : List PubKey) : List PubKey :=
  members.filter (· ∉ c.removes) ++ c.adds.filter (· ∉ members)

/-- What a device holds of an agreed channel: its chain, the keys it stored in order, and
who is in the channel as its log tells it. -/
structure Device where
  chain : Chain
  keys : List (UInt32 × Bytes32)
  members : List PubKey
  deriving DecidableEq

namespace Device

def founded (drawn : Bytes32) (members : List PubKey) : Device :=
  ⟨Chain.create drawn, [], members⟩

/-- Read an entry: a commit the chain takes moves the device, anything else leaves it. -/
def hear (C : Crypto) (d : Device) (e : Heard) : Device :=
  match commitSignedIn C e.body e.account e.device with
  | none => d
  | some c =>
    match Chain.advance C c e.secret d.chain with
    | (.ok key, chain) => ⟨chain, d.keys ++ [(c.epoch, key)], membersAfter c d.members⟩
    | (.error _, _) => d

def taken (C : Crypto) (d : Device) (p : Sent) : Device :=
  let next := d.chain.next C p.commit p.secret
  ⟨next, d.keys ++ [(p.commit.epoch, next.key C)], membersAfter p.commit d.members⟩

end Device

variable {p : Sent} {d : Device} {n m : Nat}

def Sent.Valid (C : Crypto) (d : Device) (p : Sent) : Prop :=
  p.commit.WellFormed ∧ p.commit.verify C p.device = true ∧ d.chain.Takes C p.commit p.secret

instance (C : Crypto) (d : Device) (p : Sent) : Decidable (p.Valid C d) :=
  inferInstanceAs (Decidable (_ ∧ _ ∧ _))

def step (C : Crypto) (d : Device) (p : Sent) : Device := d.hear C p.heard

def founder (C : Crypto) (drawn : Bytes32) (members : List PubKey) (log : List Sent) : Device :=
  Runs.run (step C) (Device.founded drawn members) log

def Valid (C : Crypto) (drawn : Bytes32) (members : List PubKey) (log : List Sent) : Prop :=
  Runs.Each (fun d p => p.Valid C d) (step C) (Device.founded drawn members) log

instance (C : Crypto) (drawn : Bytes32) (members : List PubKey) (log : List Sent) :
    Decidable (Valid C drawn members log) :=
  inferInstanceAs (Decidable (Runs.Each _ _ _ _))

/-- An entry that moves no chain standing where the device's does: no commit in it, or one
that `advance` refuses. -/
def Passed (C : Crypto) (d : Device) (e : Heard) : Prop :=
  ∀ c, commitSignedIn C e.body e.account e.device = some c →
    ∃ why, (Chain.advance C c e.secret).result d.chain = .error why

/-- What a holder puts in a `Welcome`: its chain, the key of its epoch, and a history of
keys it holds for the epochs before. -/
def Offer (C : Crypto) (g : Device) (p : Sent) (slots : UInt32 × List Bytes32) : Prop :=
  ∃ history, slots = welcome p.commit g.chain.chain (g.chain.key C) history ∧
    numbered slots.1 history ⊆ g.keys

/-- The devices of a channel. `Holder m n d`: `d` stands after `n` commits of the log, and
the first of them it was there for is number `m`. -/
inductive Holder (C : Crypto) (drawn : Bytes32) (members : List PubKey) (log : List Sent) :
    Nat → Nat → Device → Prop where
  | founded : Holder C drawn members log 0 0 (Device.founded drawn members)
  | takes {m n : Nat} {d : Device} {p : Sent} (held : Holder C drawn members log m n d)
      (next : log[n]? = some p) : Holder C drawn members log m (n + 1) (d.hear C p.heard)
  | passes {m n : Nat} {d : Device} {e : Heard} (held : Holder C drawn members log m n d)
      (passed : Passed C d e) : Holder C drawn members log m n (d.hear C e)
  /-- Admitted by commit `n`, and told who is in the channel as of it. -/
  | welcomed {m n : Nat} {g : Device} {p : Sent} {slots : UInt32 × List Bytes32} {chain : Chain}
      {keys : List (UInt32 × Bytes32)} (giver : Holder C drawn members log m (n + 1) g)
      (admitting : log[n]? = some p) (offer : Offer C g p slots)
      (read : readWelcome C p.commit slots.1 slots.2 = .ok (chain, keys)) :
      Holder C drawn members log n (n + 1) ⟨chain, keys, g.members⟩
  /-- Admitted again from behind, keeping the keys it had. -/
  | readmitted {m n k j : Nat} {d g : Device} {p : Sent} {slots : UInt32 × List Bytes32}
      {chain : Chain} {keys : List (UInt32 × Bytes32)}
      (behind : Holder C drawn members log k j d) (hj : j ≤ n)
      (giver : Holder C drawn members log m (n + 1) g)
      (admitting : log[n]? = some p) (offer : Offer C g p slots)
      (read : readWelcome C p.commit slots.1 slots.2 = .ok (chain, keys)) :
      Holder C drawn members log n (n + 1) ⟨chain, d.keys ++ keys, g.members⟩

structure Agrees (m : Nat) (d f : Device) : Prop where
  chain : d.chain = f.chain
  members : d.members = f.members
  keys : d.keys ⊆ f.keys
  since : f.keys.drop m ⊆ d.keys

section
variable {C : Crypto} {drawn : Bytes32} {members : List PubKey} {log : List Sent}

theorem signedIn_heard (hwf : p.commit.WellFormed) (hsig : p.commit.verify C p.device = true) :
    commitSignedIn C p.heard.body p.heard.account p.heard.device = some p.commit := by
  simp [commitSignedIn, Sent.heard, Commit.decode_encode hwf, hsig]

theorem hear_valid (h : p.Valid C d) : d.hear C p.heard = d.taken C p := by
  obtain ⟨hwf, hsig, htakes⟩ := h
  simp only [Device.hear, signedIn_heard hwf hsig]
  rcases Chain.advance_eq C d.chain p.commit p.secret with ⟨-, hok⟩ | ⟨hno, -⟩
  · rw [show p.heard.secret = p.secret from rfl, hok]
    rfl
  · exact absurd htakes hno

theorem hear_passed {e : Heard} (h : Passed C d e) : d.hear C e = d := by
  unfold Device.hear
  cases hc : commitSignedIn C e.body e.account e.device with
  | none => rfl
  | some c =>
    obtain ⟨why, herror⟩ := h c hc
    have hrun : Chain.advance C c e.secret d.chain =
        (.error why, (Chain.advance C c e.secret).after d.chain) := Prod.ext herror rfl
    simp only [hrun]

theorem Valid.at (hvalid : Valid C drawn members log) (hp : log[n]? = some p) :
    p.Valid C (founder C drawn members (log.take n)) := by
  obtain ⟨hn, rfl⟩ := List.getElem?_eq_some_iff.mp hp
  have hsplit : log = log.take n ++ log[n] :: log.drop (n + 1) := by
    rw [List.getElem_cons_drop, List.take_append_drop]
  unfold Valid at hvalid
  rw [hsplit, Runs.each_append] at hvalid
  exact hvalid.2.1

theorem founder_hears (hp : log[n]? = some p) :
    founder C drawn members (log.take (n + 1)) =
      (founder C drawn members (log.take n)).hear C p.heard := by
  rw [founder, List.take_add_one, hp, Option.toList_some, Runs.run_append, Runs.run_cons,
    Runs.run_nil]
  rfl

theorem founder_holds (hn : n ≤ log.length) :
    Holder C drawn members log 0 n (founder C drawn members (log.take n)) := by
  induction n with
  | zero => exact Holder.founded
  | succ n ih =>
    have hp := List.getElem?_eq_getElem hn
    rw [founder_hears hp]
    exact (ih (by omega)).takes hp

theorem founder_succ (hvalid : Valid C drawn members log) (hp : log[n]? = some p) :
    founder C drawn members (log.take (n + 1)) =
      (founder C drawn members (log.take n)).taken C p := by
  rw [founder_hears hp]
  exact hear_valid (hvalid.at hp)

theorem length_founder_keys (hvalid : Valid C drawn members log) (hn : n ≤ log.length) :
    (founder C drawn members (log.take n)).keys.length = n := by
  induction n with
  | zero => rfl
  | succ n ih =>
    rw [founder_succ hvalid (List.getElem?_eq_getElem hn), Device.taken, List.length_append,
      ih (by omega)]
    rfl

theorem founder_keys_subset (hvalid : Valid C drawn members log) {j : Nat} (hj : j ≤ n) :
    (founder C drawn members (log.take j)).keys ⊆ (founder C drawn members (log.take n)).keys := by
  induction n, hj using Nat.le_induction with
  | base => exact fun k hk => hk
  | succ n hj ih =>
    intro k hk
    cases hp : log[n]? with
    | none =>
      have hend : log.take (n + 1) = log.take n := by simp [List.take_add_one, hp]
      rw [hend]
      exact ih hk
    | some p =>
      rw [founder_succ hvalid hp]
      exact List.mem_append_left _ (ih hk)

theorem Agrees.taken {f : Device} (h : Agrees m d f) (p : Sent) :
    Agrees m (d.taken C p) (f.taken C p) where
  chain := by simp only [Device.taken, h.chain]
  members := by simp only [Device.taken, h.members]
  keys := by
    simp only [Device.taken, h.chain]
    intro k hk
    rcases List.mem_append.mp hk with hold | hnew
    · exact List.mem_append_left _ (h.keys hold)
    · exact List.mem_append_right _ hnew
  since := by
    simp only [Device.taken, h.chain, List.drop_append]
    intro k hk
    rcases List.mem_append.mp hk with hold | hnew
    · exact List.mem_append_left _ (h.since hold)
    · exact List.mem_append_right _ (List.mem_of_mem_drop hnew)

/-- What a joiner reads out of a holder's `Welcome`, where the holder is in step: the
founder's chain, keys the founder has, and the key of the epoch it is admitted at. -/
theorem read_offer (hvalid : Valid C drawn members log) {g : Device} {slots : UInt32 × List Bytes32}
    {chain : Chain} {keys : List (UInt32 × Bytes32)}
    (hg : Agrees m g (founder C drawn members (log.take (n + 1)))) (hp : log[n]? = some p)
    (hoffer : Offer C g p slots)
    (hread : readWelcome C p.commit slots.1 slots.2 = .ok (chain, keys)) :
    Agrees n ⟨chain, keys, g.members⟩ (founder C drawn members (log.take (n + 1))) := by
  obtain ⟨history, rfl, hhistory⟩ := hoffer
  obtain ⟨rfl, rfl⟩ := readWelcome_ok hread
  have hsucc := founder_succ hvalid hp
  have hlen := length_founder_keys hvalid (n := n)
    (Nat.le_of_lt (List.getElem?_eq_some_iff.mp hp).1)
  have hread : numbered (welcome p.commit g.chain.chain (g.chain.key C) history).1
      (welcome p.commit g.chain.chain (g.chain.key C) history).2.tail =
      numbered (welcome p.commit g.chain.chain (g.chain.key C) history).1 history ++
        [(p.commit.epoch, g.chain.key C)] := numbered_concat _ _ _
  have hlast : (founder C drawn members (log.take (n + 1))).keys =
      (founder C drawn members (log.take n)).keys ++ [(p.commit.epoch, g.chain.key C)] := by
    rw [hg.chain, hsucc]
    rfl
  constructor
  · simp only [welcome, List.headD_cons, hg.chain, hsucc, Device.taken, Chain.next, Chain.welcomed]
  · exact hg.members
  · simp only [hread]
    intro k hk
    rcases List.mem_append.mp hk with hpast | hcurrent
    · exact hg.keys (hhistory hpast)
    · rw [hlast]
      exact List.mem_append_right _ hcurrent
  · simp only [hread, hlast, List.drop_append, hlen, Nat.sub_self, List.drop_zero]
    intro k hk
    rw [List.drop_of_length_le (Nat.le_of_eq hlen), List.nil_append] at hk
    exact List.mem_append_right _ hk

theorem Agrees.with_old {old keys : List (UInt32 × Bytes32)} {chain : Chain} {members : List PubKey}
    {f : Device} (h : Agrees m ⟨chain, keys, members⟩ f) (hold : old ⊆ f.keys) :
    Agrees m ⟨chain, old ++ keys, members⟩ f where
  chain := h.chain
  members := h.members
  keys := List.append_subset.mpr ⟨hold, h.keys⟩
  since := fun _ hk => List.mem_append_right _ (h.since hk)

theorem Holder.agrees (hvalid : Valid C drawn members log) (h : Holder C drawn members log m n d) :
    Agrees m d (founder C drawn members (log.take n)) := by
  induction h with
  | founded => exact ⟨rfl, rfl, fun _ hk => hk, fun _ hk => hk⟩
  | @takes m n d p _ hp ih =>
    have hd : p.Valid C d := by
      have hf := hvalid.at hp
      unfold Sent.Valid at hf ⊢
      rwa [ih.chain]
    rw [hear_valid hd, founder_succ hvalid hp]
    exact ih.taken p
  | passes _ hpassed ih =>
    rw [hear_passed hpassed]
    exact ih
  | welcomed _ hp hoffer hread ih => exact read_offer hvalid ih hp hoffer hread
  | readmitted _ hj _ hp hoffer hread ihd ihg =>
    have hold := List.Subset.trans ihd.keys (founder_keys_subset hvalid (Nat.le_succ_of_le hj))
    exact (read_offer hvalid ihg hp hoffer hread).with_old hold

theorem founder_epoch (hvalid : Valid C drawn members log) (hn : n ≤ log.length) :
    (founder C drawn members (log.take n)).chain.epoch = UInt32.ofNat n := by
  induction n with
  | zero => rfl
  | succ n ih =>
    have hp := List.getElem?_eq_getElem hn
    have hepoch : log[n].commit.epoch = UInt32.ofNat n + 1 := by
      rw [← ih (by omega)]
      exact (hvalid.at hp).2.2.1
    rw [founder_succ hvalid hp, UInt32.ofNat_add]
    exact hepoch

theorem founder_keys (hvalid : Valid C drawn members log) (hn : n ≤ log.length) :
    (founder C drawn members (log.take n)).keys = (List.range n).map fun i =>
      let s := (founder C drawn members (log.take (i + 1))).chain
      (s.epoch, s.key C) := by
  induction n with
  | zero => rfl
  | succ n ih =>
    rw [List.range_succ, List.map_append, ← ih (by omega)]
    simp only [List.map_cons, List.map_nil, founder_succ hvalid (List.getElem?_eq_getElem hn)]
    rfl

theorem founder_welcome (hvalid : Valid C drawn members log) (hp : log[n]? = some p)
    (history : List Bytes32) (hlen : history.length < 2 ^ 32) :
    let s := (founder C drawn members (log.take (n + 1))).chain
    let w := welcome p.commit s.chain (s.key C) history
    readWelcome C p.commit w.1 w.2 = .ok (s, numbered w.1 (history ++ [s.key C])) := by
  intro s w
  have hs : s = Chain.welcomed C p.commit s.chain := by
    simp only [s, founder_succ hvalid hp, Device.taken, Chain.next, Chain.welcomed]
  have hread := readWelcome_welcome C p.commit s.chain history hlen
  rwa [← hs] at hread

/-- Agreement chains converge. Over any log of commits, each valid where the founder stands at it, a
device that founded the channel or was welcomed, and took the commits in order whatever else it
heard, has the founder's chain, transcript and members, and every key of the founder's since it came
in. A refused advance moves nothing, and a `Welcome` is read back as the keys of its range. -/
theorem agreement_converges (hvalid : Valid C drawn members log) :
    (∀ m n d, Holder C drawn members log m n d →
      Agrees m d (founder C drawn members (log.take n))) ∧
    (∀ n, n ≤ log.length → (founder C drawn members (log.take n)).chain.epoch = UInt32.ofNat n ∧
      (founder C drawn members (log.take n)).keys = (List.range n).map fun i =>
        let s := (founder C drawn members (log.take (i + 1))).chain
        (s.epoch, s.key C)) ∧
    (∀ (s : Chain) (c : Commit) (secret : Bytes32) (why : Refused),
      (Chain.advance C c secret).result s = .error why →
        (Chain.advance C c secret).after s = s) ∧
    (∀ (n : Nat) (p : Sent), log[n]? = some p →
      ∀ history : List Bytes32, history.length < 2 ^ 32 →
        let s := (founder C drawn members (log.take (n + 1))).chain
        let w := welcome p.commit s.chain (s.key C) history
        let keys := numbered w.1 (history ++ [s.key C])
        readWelcome C p.commit w.1 w.2 = .ok (s, keys) ∧
          (history.length < p.commit.epoch.toNat → keys.map (·.1.toNat) =
            List.range' (p.commit.epoch.toNat - history.length) (history.length + 1))) := by
  refine ⟨fun m n d h => h.agrees hvalid, fun n hn => ?_, fun s c secret why h => ?_, ?_⟩
  · exact ⟨founder_epoch hvalid hn, founder_keys hvalid hn⟩
  · rcases Chain.advance_eq C s c secret with ⟨-, hok⟩ | ⟨-, why', herror⟩
    · rw [Call.result, hok] at h
      cases h
    · rw [Call.after, herror]
  · intro n p hp history hlen s w keys
    exact ⟨founder_welcome hvalid hp history hlen, numbered_epochs p.commit.epoch history _⟩

end

def Sent.after (C : Crypto) (s : Chain) (seed secret : Bytes32) (adds removes : List PubKey) :
    Sent :=
  let c : Commit := ⟨s.epoch + 1, C.publicKey seed, adds, removes, contributionOf C secret,
    s.transcript, 0⟩
  ⟨{ c with sig := C.sign seed (commitContext ++ c.signingInput) }, C.publicKey seed, secret⟩

/-- A channel keyed for its founder alone, and a commit that admits another. -/
def twoCommits : List Sent :=
  let s₀ := Chain.create 5
  let first := Sent.after Crypto.toy s₀ 1 7 [] []
  let s₁ := s₀.next Crypto.toy first.commit first.secret
  [first, Sent.after Crypto.toy s₁ 1 8 [9] []]

/-- The account admitted by the second commit comes in step with the founder. -/
theorem agreement_converges_joiner :
    ∃ d, Holder Crypto.toy 5 [2] twoCommits 1 2 d ∧
      Agrees 1 d (founder Crypto.toy 5 [2] (twoCommits.take 2)) := by
  have hvalid : Valid Crypto.toy 5 [2] twoCommits := by decide +kernel
  obtain ⟨hagrees, -, -, hwelcome⟩ := agreement_converges hvalid
  have hadmits : twoCommits[1]? = some twoCommits[1] := rfl
  have hread := (hwelcome 1 _ hadmits [] (by decide)).1
  have hjoiner := (founder_holds (by decide)).welcomed hadmits ⟨[], rfl, List.nil_subset _⟩ hread
  exact ⟨_, hjoiner, hagrees _ _ _ hjoiner⟩

end Sqex.Agreed
