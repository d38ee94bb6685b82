import Sqex.Exchange.OriginSteps

/-! The roster of a channel: a member's row after each change made to it, and that writing
an entry into the log changes no row. -/
namespace Sqex.Exchange
open Std
namespace Rows
variable {C : Crypto} {h : Host} {channel : Bytes32} {r r' : Rows} {es : List Ordered}

section
variable (role : Role) (joined : UInt64) (m : Option MemberRow)

def seatedRow : MemberRow :=
  (m.map fun m => { m with present := true }).getD (.new role joined)

def enrolledRow : MemberRow :=
  (m.map fun m => { m with present := true, role := role }).getD (.new role joined)

def movedRow : MemberRow :=
  (m.map fun m => { m with role := m.role.max role, present := true }).getD (.new role joined)

def roleIn : Role := (m.map (·.role)).getD .member

end

@[simp] theorem roleIn_none : roleIn none = .member := rfl
@[simp] theorem roleIn_some (m : MemberRow) : roleIn (some m) = m.role := rfl

section Fields
variable (role : Role) (joined : UInt64) (m : Option MemberRow)

theorem seatedRow_fields :
    (seatedRow role joined m).present = true ∧
      (seatedRow role joined m).role = (m.map (·.role)).getD role ∧
      (seatedRow role joined m).muted = m.any (·.muted) := by
  cases m <;> simp [seatedRow, MemberRow.new]

theorem enrolledRow_fields :
    (enrolledRow role joined m).present = true ∧ (enrolledRow role joined m).role = role ∧
      (enrolledRow role joined m).muted = m.any (·.muted) := by
  cases m <;> simp [enrolledRow, MemberRow.new]

theorem movedRow_fields :
    (movedRow role joined m).present = true ∧ (movedRow role joined m).role = (roleIn m).max role ∧
      (movedRow role joined m).muted = m.any (·.muted) := by
  cases m with
  | none => cases role <;> simp [movedRow, MemberRow.new, Role.max]
  | some m => simp [movedRow]

end Fields

section
variable (r : Rows) (who a : PubKey) (role : Role) (joined : UInt64)

theorem seat_member :
    (r.seat who role joined).member[a]? =
      if who = a then some (seatedRow role joined r.member[a]?) else r.member[a]? := by
  unfold seat
  rw [lookup_insert]
  by_cases hwho : who = a
  · rw [if_pos hwho, if_pos hwho, hwho]
    cases r.member[a]? <;> rfl
  · rw [if_neg hwho, if_neg hwho]

theorem enroll_member :
    (r.enroll who role joined).member[a]? =
      if who = a then some (enrolledRow role joined r.member[a]?) else r.member[a]? := by
  unfold enroll
  rw [lookup_insert]
  by_cases hwho : who = a
  · rw [if_pos hwho, if_pos hwho, hwho]
    cases r.member[a]? <;> rfl
  · rw [if_neg hwho, if_neg hwho]

theorem seatNew_member :
    (r.seatNew who role joined).member[a]? =
      if who = a then some (r.member[a]?.getD (.new role joined)) else r.member[a]? := by
  unfold seatNew
  dsimp only
  rw [ExtTreeMap.getElem?_insertIfNew]
  by_cases hwho : who = a
  · obtain rfl := hwho
    cases hrow : r.member[who]? with
    | none =>
      have hnew : who ∉ r.member := by simpa using hrow
      simp [hnew]
    | some m =>
      have hheld : who ∈ r.member := by
        rw [ExtTreeMap.mem_iff_isSome_getElem?, hrow]
        rfl
      simp [hheld]
  · simp [hwho]

theorem unseat_member : (r.unseat who).member[a]? = if who = a then none else r.member[a]? :=
  lookup_erase r.member who a

theorem alter_member (f : MemberRow → MemberRow) :
    (r.alter who f).member[a]? = if who = a then r.member[a]?.map f else r.member[a]? := by
  unfold alter
  cases hrow : r.member[who]? with
  | none =>
    by_cases hwho : who = a
    · simp [← hwho, hrow]
    · simp [hwho]
  | some m =>
    rw [lookup_insert]
    by_cases hwho : who = a
    · simp [← hwho, hrow]
    · simp [hwho]

theorem moveMember_member (account successor a : PubKey) (role : Role) (now : UInt64) :
    (r.moveMember account successor role now).member[a]? =
      if account = a then none
      else if successor = a then some (movedRow role now r.member[a]?)
      else r.member[a]? := by
  unfold moveMember
  dsimp only
  rw [lookup_erase, lookup_insert]
  by_cases haccount : account = a
  · rw [if_pos haccount, if_pos haccount]
  · rw [if_neg haccount, if_neg haccount]
    by_cases hsuccessor : successor = a
    · rw [if_pos hsuccessor, if_pos hsuccessor, hsuccessor]
      cases r.member[a]? <;> rfl
    · rw [if_neg hsuccessor, if_neg hsuccessor]

theorem standDown_member (c : ChannelRow) (r : Rows) (who a : PubKey) (role : Role) :
    (standDown c r who role).member[a]? =
      if who = a then
        if c.visibility = .pub ∧ role = .admin then
          r.member[a]?.map fun m => { m with present := false }
        else none
      else r.member[a]? := by
  unfold standDown
  by_cases hpub : c.visibility = .pub ∧ role = .admin
  · rw [if_pos hpub, alter_member, if_pos hpub]
  · rw [if_neg hpub, unseat_member, if_neg hpub]

/-- What a change of the roster, or of the log, leaves as it was. -/
structure SameChannel (r' : Rows) : Prop where
  some : r'.channel.isSome = r.channel.isSome
  replicated : r'.replicated = r.replicated

end

theorem SameChannel.originRow (hsame : SameChannel r r') : r'.originRow = r.originRow := by
  rw [Rows.originRow, hsame.replicated, Rows.originRow]

theorem SameChannel.trans {r₁ r₂ r₃ : Rows} (h₁ : SameChannel r₁ r₂) (h₂ : SameChannel r₂ r₃) :
    SameChannel r₁ r₃ :=
  ⟨h₂.some.trans h₁.some, h₂.replicated.trans h₁.replicated⟩

theorem Appended.same {seed : Option Bytes32} {place : Place} {posted : UInt64}
    {entryHash : Bytes32} {row : Receipted → EntryRow} {e : Ordered} {c : ChannelRow}
    (happended : Appended C seed place posted entryHash row r r' e c) :
    r'.member = r.member ∧ SameChannel r r' := by
  rw [happended.rows]
  exact ⟨rfl, by simp [happended.channel], rfl⟩

theorem writeSystem_same {s : System} {arg : Bytes} {now : UInt64}
    (hwrite : r.writeSystem C h channel s arg now = .ok (r', es)) :
    r'.member = r.member ∧ SameChannel r r' := by
  obtain ⟨c, input, e, -, hacted⟩ := writeSystem_ok.mp hwrite
  obtain ⟨hmember, hsame⟩ := hacted.appended.same
  exact ⟨hmember, hsame.some, hsame.replicated⟩

theorem writeSuccession_same {account successor : PubKey} {issued : UInt64} {sig : Bytes64}
    {now : UInt64}
    (hwrite : r.writeSuccession C h channel account successor issued sig now = .ok (r', es)) :
    r'.member = r.member ∧ SameChannel r r' := by
  obtain ⟨c, e, -, happended⟩ := writeSuccession_ok.mp hwrite
  exact happended.same

theorem alter_same (r : Rows) (who : PubKey) (f : MemberRow → MemberRow) :
    SameChannel r (r.alter who f) := by
  unfold alter
  split <;> exact ⟨rfl, rfl⟩

theorem standDown_same (c : ChannelRow) (r : Rows) (who : PubKey) (role : Role) :
    SameChannel r (standDown c r who role) := by
  unfold standDown
  split
  · exact alter_same r who _
  · exact ⟨rfl, rfl⟩

theorem post_member {w : Around} {account device : PubKey} {req : Post}
    (hok : r.post C h channel w account device req = .ok (r', es)) (a : PubKey) :
    r'.member[a]? =
      if account = a then r.member[a]?.map fun m => { m with posted := true }
      else r.member[a]? := by
  obtain ⟨-, -, -, c, r₁, e, -, hposted, rfl⟩ := post_ok hok
  obtain ⟨r₂, rfl, happended⟩ := hposted.appended
  have hmember : (r₂.bump device req.epoch req.msgSeq).member = r.member := happended.same.1
  have hrow := alter_member (r₂.bump device req.epoch req.msgSeq) account a
    fun m => { m with posted := true }
  rw [hmember] at hrow
  exact hrow

theorem post_same {w : Around} {account device : PubKey} {req : Post}
    (hok : r.post C h channel w account device req = .ok (r', es)) : SameChannel r r' := by
  obtain ⟨-, -, -, c, r₁, e, -, hposted, rfl⟩ := post_ok hok
  obtain ⟨r₂, rfl, happended⟩ := hposted.appended
  have hsame := happended.same.2
  have halter := alter_same (r₂.bump device req.epoch req.msgSeq) account
    fun m => { m with posted := true }
  exact ⟨halter.some.trans hsame.some, halter.replicated.trans hsame.replicated⟩

theorem roleOf_isSome_iff {who : PubKey} :
    (r.roleOf who).isSome ↔ ∃ m, r.member[who]? = some m ∧ m.present = true := by
  unfold roleOf
  cases r.member[who]? <;> simp

theorem counts_ne_one {a b : PubKey} (hne : a ≠ b) (ha : (r.roleOf a).isSome)
    (hb : (r.roleOf b).isSome) : r.counts.1 ≠ 1 := by
  obtain ⟨ma, hma, hpa⟩ := roleOf_isSome_iff.mp ha
  obtain ⟨mb, hmb, hpb⟩ := roleOf_isSome_iff.mp hb
  intro hone
  have hlen : (r.member.toList.filter fun row => row.2.present).length = 1 := by
    rw [← List.countP_eq_length_filter, ← hone]
    simp only [counts, List.countP_map]
    rfl
  obtain ⟨row, hrow⟩ := List.length_eq_one_iff.mp hlen
  have hfirst : (a, ma) ∈ r.member.toList.filter fun row => row.2.present := by
    simp [ExtTreeMap.mem_toList_iff_getElem?_eq_some, hma, hpa]
  have hsecond : (b, mb) ∈ r.member.toList.filter fun row => row.2.present := by
    simp [ExtTreeMap.mem_toList_iff_getElem?_eq_some, hmb, hpb]
  rw [hrow, List.mem_singleton] at hfirst hsecond
  exact hne (congrArg Prod.fst (hfirst.trans hsecond.symm))

end Rows
end Sqex.Exchange
