import Sqex.Exchange.OriginSteps

/-! The log of a channel ordered here never goes back, whatever is asked for and however
much of it is pruned. The one thing that can go down is a counter the signed column cannot
order. -/
namespace Sqex.Exchange
open Std Runs
variable {r r' : Rows} {inc : Bytes32} {written : List Ordered} {call : Around × Request}

/-- The rows, and what was ordered since the channel was last founded; nothing reads it. -/
structure Logged where
  rows : Rows
  written : List Ordered

namespace Logged
variable {C : Crypto} {h : Host} {channel : Bytes32} {s s' : Logged}

section
variable (r : Rows) (C : Crypto) (h : Host) (channel : Bytes32) (s : Logged)
  (call : Around × Request)

/-- A request of a channel ordered here. What founds the channel begins its log again. -/
def step : Logged :=
  if s.rows.originRow.isSome then s
  else
    match s.rows.perform C h channel call.1 call.2 with
    | .error _ => s
    | .ok (rows, es) =>
      ⟨rows, if s.rows.founds C channel call.2 then es else s.written ++ es⟩

/-- Nothing is held, and nobody stands anywhere. -/
structure Bare : Prop where
  entry : r.entry = ∅
  chain : r.chain = ∅
  highWater : r.highWater = ∅

structure Fresh : Prop where
  bare : Bare r
  begins : ∀ c ∈ r.channel, c.head = headGenesis ∧ c.nextSeq = 1

def Kept : Prop :=
  match s.rows.channel with
  | none => Bare s.rows
  | some c => Ledger C h channel c.incarnation s.written s.rows

/-- Neither a chain nor a counter is lower than it was. -/
def NotLowered (r' : Rows) : Prop :=
  ∀ device, (r.chainHead device).1 ≤ (r'.chainHead device).1 ∧
    ∀ epoch, r.markOf device epoch ≤ r'.markOf device epoch

def Rises : Prop :=
  s.rows.founds C channel call.2 = false → (s.step C h channel call).rows.channel.isSome →
    NotLowered s.rows (s.step C h channel call).rows

/-- There are positions left, and no counter comes back from 2^63 or above. -/
def InRange : Prop :=
  s.written.length + maxMembers < 2 ^ 64 ∧ s.rows.CounterInOrder call.2

end

theorem ledger_nil (hbare : Bare r) (hend : r.logEnd = some (inc, headGenesis, 1)) :
    Ledger C h channel inc [] r := by
  have hsteps : ∀ device, stepsOf device [] = [] := fun _ => rfl
  refine ⟨⟨hend, rfl, ?_, ?_⟩, ⟨?_, ?_⟩, ?_⟩
  · intro before e rest hsplit
    simp at hsplit
  · intro seq row hrow
    simp [hbare.entry] at hrow
  · exact fun _ => gapless_nil
  · intro device
    simp [Rows.chainHead, hbare.chain, hsteps, nextStep]
  · intro device epoch
    simp [Rows.heldMark, hbare.highWater, topOf, countersOf]

theorem kept_fresh (hfresh : Fresh r) : Kept C h channel ⟨r, []⟩ := by
  unfold Kept
  dsimp only
  cases hc : r.channel with
  | none => exact hfresh.bare
  | some c =>
    obtain ⟨hhead, hnext⟩ := hfresh.begins c hc
    exact ledger_nil hfresh.bare (by simp [Rows.logEnd, hc, hhead, hnext])

theorem bare_of_logs {es : List Ordered} (hlogs : r.Logs C h channel es r')
    (hnone : r.channel = none) (hbare : Bare r) :
    r'.channel = none ∧ Bare r' := by
  induction hlogs with
  | @still r r' hstill =>
    have hend := hstill.logEnd
    simp only [Rows.logEnd, hnone, Option.map_none, Option.map_eq_none_iff] at hend
    refine ⟨hend, ⟨?_, by rw [hstill.chain, hbare.chain], by rw [hstill.highWater,
      hbare.highWater]⟩⟩
    refine ExtTreeMap.ext_getElem? fun seq => ?_
    cases hrow : r'.entry[seq]? with
    | none => simp
    | some row =>
      obtain ⟨before, hbefore, -⟩ := hstill.held seq row hrow
      simp [hbare.entry] at hbefore
  | acted _ _ hacted =>
    have hc := hacted.appended.channel
    simp [hnone] at hc
  | succeeded _ happended =>
    have hc := happended.channel
    simp [hnone] at hc
  | posted _ hposted =>
    obtain ⟨r₁, -, happended⟩ := hposted.appended
    have hc := happended.channel
    simp [hnone] at hc
  | trans _ _ ih₁ ih₂ =>
    obtain ⟨hnone₁, hbare₁⟩ := ih₁ hnone hbare
    exact ih₂ hnone₁ hbare₁

theorem kept_of_ledger (hledger : Ledger C h channel inc written r) :
    Kept C h channel ⟨r, written⟩ := by
  have hend := hledger.log.logEnd
  obtain ⟨c, hc, htip⟩ := Option.map_eq_some_iff.mp hend
  unfold Kept
  rw [hc]
  obtain ⟨rfl, -⟩ := Prod.mk.inj htip
  exact hledger

theorem kept_of_bare (hnone : r.channel = none) (hbare : Bare r) :
    Kept C h channel ⟨r, written⟩ := by
  unfold Kept
  rw [hnone]
  exact hbare

theorem bare_destroy (r : Rows) : r.destroy.channel = none ∧ Bare r.destroy :=
  ⟨rfl, rfl, rfl, rfl⟩

theorem kept_logs {es : List Ordered} (hkept : Kept C h channel ⟨r, written⟩)
    (hlogs : r.Logs C h channel es r') (hfits : written.length + es.length < 2 ^ 64) :
    Kept C h channel ⟨r', written ++ es⟩ := by
  unfold Kept at hkept
  cases hc : r.channel with
  | none =>
    simp only [hc] at hkept
    obtain ⟨hnone, hbare⟩ := bare_of_logs hlogs hc hkept
    exact kept_of_bare hnone hbare
  | some c =>
    simp only [hc] at hkept
    exact kept_of_ledger (hkept.logs hlogs hfits)

theorem kept_step (hkept : Kept C h channel s) (hrange : InRange s call) :
    Kept C h channel (s.step C h channel call) := by
  obtain ⟨hroom, horder⟩ := hrange
  unfold step
  by_cases horigin : s.rows.originRow.isSome
  · rw [if_pos horigin]
    exact hkept
  rw [if_neg horigin]
  cases hok : s.rows.perform C h channel call.1 call.2 with
  | error e => exact hkept
  | ok p =>
    obtain ⟨r', es⟩ := p
    dsimp only
    have hhere : s.rows.originRow = none := by simpa using horigin
    cases hfounds : s.rows.founds C channel call.2 with
    | false =>
      rw [if_neg Bool.false_ne_true]
      obtain ⟨hout, hlen⟩ := Rows.perform_outcome hhere horder hfounds hok
      have hspace : s.written.length + es.length < 2 ^ 64 := by omega
      cases hout with
      | goesOn hlogs => exact kept_logs hkept hlogs hspace
      | ends hlogs hends =>
        rw [hends]
        exact kept_of_bare rfl (bare_destroy _).2
    | true =>
      rw [if_pos rfl]
      obtain ⟨base, inc, r₀, hbase, hbegun, hlogs, -, hlen⟩ :=
        Rows.begins_of_founds hfounds hok
      have hbare : Bare base := by
        cases hbase with
        | inl habsent =>
          obtain ⟨rfl, hnone⟩ := habsent
          unfold Kept at hkept
          simpa only [hnone] using hkept
        | inr hcleared =>
          rw [hcleared]
          exact (bare_destroy _).2
      have hempty : Ledger C h channel inc [] r₀ :=
        ledger_nil ⟨hbegun.entry.trans hbare.entry, hbegun.chain.trans hbare.chain,
          hbegun.highWater.trans hbare.highWater⟩ hbegun.logEnd
      have hspace : ([] : List Ordered).length + es.length < 2 ^ 64 := by
        simp only [List.length_nil]
        omega
      exact kept_of_ledger (hempty.logs hlogs hspace)

theorem length_lt (hlog : Positioned C h channel inc written r) : written.length < 2 ^ 64 := by
  cases Nat.eq_zero_or_pos written.length with
  | inl hzero => omega
  | inr hpos =>
    have hlast : written.length ∈ written.map (·.seq.toNat) := by
      rw [hlog.positions, List.mem_range'_1]
      omega
    obtain ⟨e, -, hseq⟩ := List.mem_map.mp hlast
    have hlt := e.seq.toNat_lt
    omega

theorem stepsOf_prefix (device : PubKey) {more : List Ordered} (hbegins : written <+: more) :
    (stepsOf device written).length ≤ (stepsOf device more).length :=
  ((hbegins.filterMap _).filter _).length_le

theorem stepsOf_length_le (device : PubKey) (written : List Ordered) :
    (stepsOf device written).length ≤ written.length :=
  (List.length_filter_le _ _).trans (List.length_filterMap_le _ _)

theorem chainHead_le_of_prefix {more : List Ordered} (hchains : Chained written r)
    (hchains' : Chained more r') (hbegins : written <+: more) (hlt : more.length < 2 ^ 64)
    (device : PubKey) :
    (r.chainHead device).1 ≤ (r'.chainHead device).1 := by
  have hle := stepsOf_prefix device hbegins
  have hshort := stepsOf_length_le device more
  have hbefore : (stepsOf device written).length < 2 ^ 64 := by omega
  have hafter : (stepsOf device more).length < 2 ^ 64 := by omega
  rw [hchains.standing, hchains'.standing, UInt64.le_iff_toNat_le, nextStep, nextStep,
    UInt64.toNat_ofNat', UInt64.toNat_ofNat', Nat.mod_eq_of_lt hbefore, Nat.mod_eq_of_lt hafter]
  exact hle

theorem prefix_step (hnot : s.rows.founds C channel call.2 = false) :
    s.written <+: (s.step C h channel call).written := by
  unfold step
  by_cases horigin : s.rows.originRow.isSome
  · rw [if_pos horigin]
  · rw [if_neg horigin]
    cases s.rows.perform C h channel call.1 call.2 with
    | error e => exact List.prefix_rfl
    | ok p =>
      simp only [hnot]
      exact List.prefix_append _ _

theorem markOf_le_step (hrange : InRange s call) (hnot : s.rows.founds C channel call.2 = false)
    (hsome : (s.step C h channel call).rows.channel.isSome) (device : PubKey) (epoch : UInt32) :
    s.rows.markOf device epoch ≤ (s.step C h channel call).rows.markOf device epoch := by
  unfold step at hsome ⊢
  by_cases horigin : s.rows.originRow.isSome
  · rw [if_pos horigin]
    exact UInt64.le_refl _
  rw [if_neg horigin] at hsome ⊢
  cases hok : s.rows.perform C h channel call.1 call.2 with
  | error e => exact UInt64.le_refl _
  | ok p =>
    obtain ⟨r', es⟩ := p
    rw [hok] at hsome
    have hhere : s.rows.originRow = none := by simpa using horigin
    cases (Rows.perform_outcome hhere hrange.2 hnot hok).1 with
    | goesOn hlogs => exact markOf_le_of_logs hlogs device epoch
    | ends hlogs hends =>
      simp only [hends, (bare_destroy _).1] at hsome
      cases hsome

theorem chainHead_le_step (hkept : Kept C h channel s) (hrange : InRange s call)
    (hnot : s.rows.founds C channel call.2 = false)
    (hsome : (s.step C h channel call).rows.channel.isSome) (device : PubKey) :
    (s.rows.chainHead device).1 ≤ ((s.step C h channel call).rows.chainHead device).1 := by
  have hafter := kept_step hkept hrange
  unfold Kept at hkept hafter
  obtain ⟨c', hc'⟩ := Option.isSome_iff_exists.mp hsome
  simp only [hc'] at hafter
  cases hc : s.rows.channel with
  | none =>
    simp only [hc] at hkept
    have hzero : (s.rows.chainHead device).1 = 0 := by simp [Rows.chainHead, hkept.chain]
    rw [hzero]
    exact UInt64.le_iff_toNat_le.mpr (Nat.zero_le _)
  | some c =>
    simp only [hc] at hkept
    exact chainHead_le_of_prefix hkept.chains hafter.chains (prefix_step hnot)
      (length_lt hafter.log) device

theorem rises_of_kept (hkept : Kept C h channel s) (hrange : InRange s call) :
    Rises C h channel s call := by
  intro hnot hsome device
  exact ⟨chainHead_le_step hkept hrange hnot hsome device,
    markOf_le_step hrange hnot hsome device⟩

/-- From a channel's founding on, whatever is asked of it, what was ordered has the positions 1, 2,
3, … and is what the head, the receipts, the chains and the counters say, and no chain and no
counter is ever lowered. -/
theorem log_never_goes_back (C : Crypto) (h : Host) (channel : Bytes32) {r : Rows}
    (hfresh : Fresh r) {calls : List (Around × Request)}
    (hrange : Each InRange (step C h channel) ⟨r, []⟩ calls) :
    Always (Kept C h channel) (step C h channel) ⟨r, []⟩ calls ∧
      Each (Rises C h channel) (step C h channel) ⟨r, []⟩ calls := by
  have hkeep : ∀ s call, Kept C h channel s → InRange s call →
      Kept C h channel (s.step C h channel call) := fun _ _ hkept hstep => kept_step hkept hstep
  have hstart : Kept C h channel ⟨r, []⟩ := kept_fresh hfresh
  exact ⟨hrange.always hkeep hstart,
    hrange.imp_of hkeep (fun _ _ hkept hstep => rises_of_kept hkept hstep) hstart⟩

section Example

abbrev room : Rows := .frontRoom 0 "lobby" (some 7) 0

/-- A post by account 7 from the device of seed 8, signed at the front room. -/
def said (msgSeq chainSeq : UInt64) (prev : Bytes32) : Post :=
  let unsigned : Post := ⟨0, msgSeq, 0, chainSeq, prev, 0, [1]⟩
  let input := (unsigned.terms ⟨1, 0, 0⟩ 7 (Crypto.toy.publicKey 8)).input .toy
  { unsigned with sig := Crypto.toy.sign 8 input }

def twoPosts (first second : UInt64) : List (Around × Request) :=
  let one := said first 0 genesis
  let hash := Rows.postHash .toy ⟨1, 0, 0⟩ 7 (Crypto.toy.publicKey 8) one
  [(.clear 10, .post 7 (Crypto.toy.publicKey 8) one),
    (.clear 11, .post 7 (Crypto.toy.publicKey 8) (said second 1 hash))]

theorem fresh_frontRoom (channel : Bytes32) (name : String) (founder : Option PubKey)
    (now : UInt64) : Fresh (.frontRoom channel name founder now) := by
  refine ⟨⟨rfl, rfl, rfl⟩, ?_⟩
  intro c hc
  obtain rfl := Option.some.inj hc
  exact ⟨rfl, rfl⟩

instance (s : Logged) (call : Around × Request) : Decidable (InRange s call) :=
  match call with
  | (_, .post _ device req) => inferInstanceAs
      (Decidable (s.written.length + maxMembers < 2 ^ 64 ∧
        (2 ^ 63 ≤ (s.rows.markOf device req.epoch).toNat → 2 ^ 63 ≤ req.msgSeq.toNat)))
  | (_, .create ..) | (_, .welcome ..) | (_, .join ..) | (_, .leave ..) | (_, .setDirectory ..)
  | (_, .retain ..) | (_, .close ..) | (_, .sweep) | (_, .invite ..) | (_, .mute ..)
  | (_, .replicate ..) | (_, .rehome ..) | (_, .remove ..) | (_, .putKeys ..) | (_, .signal ..)
  | (_, .succeed ..) | (_, .redact ..) => inferInstanceAs
      (Decidable (s.written.length + maxMembers < 2 ^ 64 ∧ True))

/-- Two posts are the entries 1 and 2, and the second may not be held any more than the
first. -/
theorem room_goes_on :
    (run (step .toy ⟨1, none, 0⟩ 0) ⟨room, []⟩ (twoPosts 4 5)).written.map (·.seq) = [1, 2] ∧
      Always (Kept .toy ⟨1, none, 0⟩ 0) (step .toy ⟨1, none, 0⟩ 0) ⟨room, []⟩
        (twoPosts 4 5) :=
  ⟨by decide +kernel, (log_never_goes_back .toy ⟨1, none, 0⟩ 0 (fresh_frontRoom ..)
    (by decide +kernel)).1⟩

/-- A counter of 2^63 is the lowest of a signed column, and the next one takes its place. -/
theorem mark_lowered : ¬ ∀ (C : Crypto) (h : Host) (channel : Bytes32) (r : Rows)
    (calls : List (Around × Request)), Fresh r →
    Always (Kept C h channel) (step C h channel) ⟨r, []⟩ calls ∧
      Each (Rises C h channel) (step C h channel) ⟨r, []⟩ calls := by
  intro hall
  obtain ⟨-, -, hsecond, -⟩ := hall .toy ⟨1, none, 0⟩ 0 room (twoPosts (2 ^ 63) 5)
    (fresh_frontRoom ..)
  have hlower := (hsecond (by decide +kernel) (by decide +kernel) (Crypto.toy.publicKey 8)).2 0
  exact absurd hlower (by decide +kernel)

end Example

end Logged
end Sqex.Exchange
