import Sqex.Lib.Runs
import Sqex.Exchange.Cursors

/-! Read marks stay inside what was delivered, and that inside what was assigned, whatever is
claimed by whom and however the exchanges' marks cross. -/
namespace Sqex.Exchange
open Std Runs

def CursorRow.Within (top : Int64) (row : CursorRow) : Prop :=
  row.read ≤ row.delivered ∧ row.delivered ≤ top

def CursorRow.UpTo (row row' : CursorRow) : Prop :=
  row.delivered ≤ row'.delivered ∧ row.read ≤ row'.read

def Mark.Within (top : Int64) (m : Mark) : Prop :=
  m.read.toInt64 ≤ m.delivered.toInt64 ∧ m.delivered.toInt64 ≤ top

theorem max_int64 (a b : Int64) : max a b = if a ≤ b then b else a := rfl

theorem min_int64 (a b : Int64) : min a b = if a ≤ b then a else b := rfl

/-- Of two numbers the lesser is a column between 0 and the other, if the other is one. -/
theorem min_toInt64 {a b : UInt64} (hb : 0 ≤ b.toInt64) :
    0 ≤ (min a b).toInt64 ∧ (min a b).toInt64 ≤ b.toInt64 := by
  have hmin : min a b = if a ≤ b then a else b := rfl
  have hcolumn : ∀ n : UInt64, n.toInt64.toInt = n.toBitVec.toInt := fun _ => rfl
  rw [hmin]
  split_ifs with hle
  · have ha := BitVec.toInt_eq_toNat_cond a.toBitVec
    have hb' := BitVec.toInt_eq_toNat_cond b.toBitVec
    have hlt := b.toBitVec.isLt
    rw [UInt64.le_iff_toBitVec_le, BitVec.le_def] at hle
    simp only [Int64.le_iff_toInt_le, hcolumn, Int64.toInt_zero] at hb ⊢
    split_ifs at ha hb' <;> omega
  · exact ⟨hb, Int64.le_refl _⟩

theorem mem_batch {e : Entry} {es : List Entry} (he : e ∈ batch es) : e ∈ es := by
  have hwithin : ∀ es bytes, e ∈ within bytes es → e ∈ es := by
    intro es
    induction es with
    | nil => exact fun _ he => he
    | cons e' rest ih =>
      intro bytes he
      unfold within at he
      split_ifs at he
      · cases he
      · rcases List.mem_cons.mp he with rfl | hrest
        · simp
        · exact List.mem_cons_of_mem _ (ih _ hrest)
  cases es with
  | nil => exact he
  | cons e' rest =>
    rcases List.mem_cons.mp he with rfl | hrest
    · simp
    · exact List.mem_cons_of_mem _ (hwithin _ _ hrest)

namespace Rows
variable {r : Rows}

theorem mem_entriesAfter {C : Crypto} {h : Host} {place : Option Place} {since : UInt64}
    {e : Entry} (he : e ∈ r.entriesAfter C h place since) : e.seq.toInt64 ∈ r.entry := by
  obtain ⟨p, hp, rfl⟩ := List.mem_map.mp (mem_batch he)
  have hmem := (List.mem_filter.mp (List.mem_of_mem_take hp)).1
  have hseq : (served C h place p).seq.toInt64 = p.1 := by
    simp [served, EntryRow.entry]
  rw [hseq]
  rw [ExtTreeMap.mem_iff_isSome_getElem?, ExtTreeMap.mem_toList_iff_getElem?_eq_some.mp hmem]
  rfl

theorem window_last : r.window.2.toInt64 = 0 ∨ r.window.2.toInt64 ∈ r.entry := by
  simp only [window, ExtTreeMap.map_fst_toList_eq_keys, Int64.toInt64_toUInt64]
  cases hlast : r.entry.keys.getLast? with
  | none => exact .inl rfl
  | some seq => exact .inr (ExtTreeMap.mem_keys.mp (List.mem_of_getLast? hlast))

end Rows

namespace Reading
variable {t t' t'' : Reading} {top top' : Int64} {caller : PubKey} {read since : UInt64}
  {receipts : Bool}

/-- A channel's tables whose log has only positions that were assigned, and whose marks are in
order. -/
structure Orderly (top : Int64) (t : Reading) : Prop where
  positions : ∀ seq ∈ t.rows.entry, 0 < seq ∧ seq ≤ top
  inside : ∀ (who : PubKey) (row : CursorRow), t.cursor[who]? = some row → row.Within top

def Rises (t t' : Reading) : Prop :=
  ∀ (who : PubKey) (row : CursorRow), t.cursor[who]? = some row →
    ∃ row', t'.cursor[who]? = some row' ∧ row.UpTo row'

theorem rises_refl (t : Reading) : t.Rises t :=
  fun _ row hrow => ⟨row, hrow, Int64.le_refl _, Int64.le_refl _⟩

theorem Rises.trans (h : t.Rises t') (h' : t'.Rises t'') : t.Rises t'' := by
  intro who row hrow
  obtain ⟨row', hrow', hdelivered, hread⟩ := h who row hrow
  obtain ⟨row'', hrow'', hdelivered', hread'⟩ := h' who row' hrow'
  exact ⟨row'', hrow'', Int64.le_trans hdelivered hdelivered', Int64.le_trans hread hread'⟩

structure Goes (top : Int64) (t t' : Reading) : Prop where
  orderly : t'.Orderly top
  rises : t.Rises t'

theorem Orderly.goes (ht : t.Orderly top) : t.Goes top t := ⟨ht, rises_refl t⟩

theorem Goes.trans (h : t.Goes top t') (h' : t'.Goes top t'') : t.Goes top t'' :=
  ⟨h'.orderly, h.rises.trans h'.rises⟩

theorem Orderly.mono (ht : t.Orderly top) (htop : top ≤ top') : t.Orderly top' := by
  refine ⟨fun seq hseq => ?_, fun who row hrow => ?_⟩
  · obtain ⟨hpos, hle⟩ := ht.positions seq hseq
    exact ⟨hpos, Int64.le_trans hle htop⟩
  · obtain ⟨hread, hdelivered⟩ := ht.inside who row hrow
    exact ⟨hread, Int64.le_trans hdelivered htop⟩

/-- A row written or changed so that it is in order and, changed, not lowered. -/
theorem Orderly.upsert (ht : t.Orderly top) {fresh : CursorRow} {change : CursorRow → CursorRow}
    (hfresh : fresh.Within top)
    (hchange : ∀ row : CursorRow, row.Within top →
      (change row).Within top ∧ row.UpTo (change row)) :
    t.Goes top (t.upsert caller fresh change) := by
  have hlookup : ∀ who, (t.upsert caller fresh change).cursor[who]? =
      if caller = who then some ((t.cursor[who]?.map change).getD fresh)
        else t.cursor[who]? := by
    intro who
    rw [Reading.upsert, lookup_insert]
    split_ifs with hwho
    · subst hwho
      cases t.cursor[caller]? <;> rfl
    · rfl
  refine ⟨⟨ht.positions, fun who row hrow => ?_⟩, fun who row hrow => ?_⟩
  · rw [hlookup] at hrow
    split_ifs at hrow
    · obtain rfl := Option.some.inj hrow
      cases hheld : t.cursor[who]? with
      | none => exact hfresh
      | some held => exact (hchange held (ht.inside who held hheld)).1
    · exact ht.inside who row hrow
  · rw [hlookup, hrow]
    split_ifs
    · exact ⟨change row, rfl, (hchange row (ht.inside who row hrow)).2⟩
    · exact ⟨row, rfl, Int64.le_refl _, Int64.le_refl _⟩

theorem fetch_goes (ht : t.Orderly top) {C : Crypto} {h : Host} {channel : Bytes32} {f : Fetched}
    (hok : t.fetch C h channel caller since receipts = .ok (t', f)) : t.Goes top t' := by
  simp only [fetch, bind_eq_ok, pure_eq_ok, Prod.mk.injEq] at hok
  obtain ⟨c, -, -, -, -, -, -, -, -, -, rfl, -⟩ := hok
  split
  · rename_i e he
    have hheld := Rows.mem_entriesAfter (List.mem_of_getLast? he)
    obtain ⟨hpos, hle⟩ := ht.positions _ hheld
    refine ht.upsert ⟨Int64.le_of_lt hpos, hle⟩ fun row hrow => ?_
    unfold CursorRow.Within CursorRow.UpTo at *
    grind [max_int64]
  · exact ht.goes

section Calls
variable (htop : 0 ≤ top) (ht : t.Orderly top)
include htop ht

theorem last_between : 0 ≤ t.rows.window.2.toInt64 ∧ t.rows.window.2.toInt64 ≤ top := by
  rcases Rows.window_last (r := t.rows) with hzero | hheld
  · rw [hzero]
    exact ⟨Int64.le_refl _, htop⟩
  · obtain ⟨hpos, hle⟩ := ht.positions _ hheld
    exact ⟨Int64.le_of_lt hpos, hle⟩

theorem setCursor_goes (hok : t.setCursor caller read receipts = .ok t') : t.Goes top t' := by
  simp only [setCursor, bind_eq_ok, pure_eq_ok] at hok
  obtain ⟨-, -, -, -, rfl⟩ := hok
  refine ht.upsert ⟨Int64.le_refl _, htop⟩ fun row hrow => ?_
  unfold CursorRow.Within CursorRow.UpTo at *
  grind [max_int64, min_int64]

theorem raiseDelivered_goes (hok : t.raiseDelivered caller read receipts = .ok t') :
    t.Goes top t' := by
  simp only [raiseDelivered, bind_eq_ok, pure_eq_ok] at hok
  obtain ⟨-, -, -, -, rfl⟩ := hok
  obtain ⟨hlast, hle⟩ := last_between htop ht
  obtain ⟨hraised, hraised'⟩ := min_toInt64 (a := read) hlast
  refine ht.upsert ⟨hraised, Int64.le_trans hraised' hle⟩ fun row hrow => ?_
  unfold CursorRow.Within CursorRow.UpTo at *
  grind [max_int64]

theorem setCursorForwarded_goes (hok : t.setCursorForwarded caller read receipts = .ok t') :
    t.Goes top t' := by
  obtain ⟨t₁, hraise, hset⟩ := bind_eq_ok.mp hok
  have hraised := raiseDelivered_goes htop ht hraise
  exact hraised.trans (setCursor_goes htop hraised.orderly hset)

end Calls

theorem allCursors_within (htop : 0 ≤ top) (ht : t.Orderly top) {marks : List Mark}
    (hok : t.allCursors = .ok marks) : ∀ m ∈ marks, m.Within top := by
  simp only [allCursors, bind_eq_ok, pure_eq_ok] at hok
  obtain ⟨-, -, rfl⟩ := hok
  intro m hm
  obtain ⟨p, -, rfl⟩ := List.mem_map.mp hm
  cases hrow : t.cursor[p.1]? with
  | none => exact ⟨Int64.le_refl _, htop⟩
  | some row =>
    obtain ⟨hread, hdelivered⟩ := ht.inside p.1 row hrow
    simpa [Mark.Within] using And.intro hread hdelivered

theorem mergeCursors_goes (ht : t.Orderly top) {marks : List Mark}
    (hmarks : ∀ m ∈ marks, m.Within top) : t.Goes top (t.mergeCursors marks) := by
  unfold mergeCursors
  induction marks generalizing t with
  | nil => exact ht.goes
  | cons m rest ih =>
    obtain ⟨hread, hdelivered⟩ := hmarks m (by simp)
    have hone : t.Goes top (t.mergeCursor m) := by
      refine ht.upsert ⟨hread, hdelivered⟩ fun row hrow => ?_
      unfold CursorRow.Within CursorRow.UpTo at *
      grind [max_int64]
    exact hone.trans (ih hone.orderly fun m hm => hmarks m (by simp [hm]))

end Reading

namespace Marking
variable {C : Crypto} {h : Side → Host} {channel : Bytes32} {s : Marking}

/-- Both exchanges' tables, and what is on the way between them, are in order. -/
structure Kept (s : Marking) : Prop where
  top : 0 ≤ s.top
  held : ∀ side, (s.held side).Orderly s.top
  told : ∀ marks ∈ s.answers, ∀ m ∈ marks, m.Within s.top

theorem Kept.inside (hkept : Kept s) : Inside s :=
  fun side who row hrow => (hkept.held side).inside who row hrow

theorem kept_start : Kept start where
  top := Int64.le_refl _
  held side := ⟨by simp [start, Rows.empty], by simp [start]⟩
  told := by simp [start]

theorem rises_refl (s : Marking) : s.Rises s :=
  fun side => (s.held side).rises_refl

/-- A call that leaves one side's tables in order and no mark lowered leaves both so. -/
theorem Kept.settle (hkept : Kept s) {side : Side} {x : Except ChannelError Reading}
    (hx : ∀ t, x = .ok t → (s.held side).Goes s.top t) :
    Kept (s.settle side x) ∧ s.Rises (s.settle side x) := by
  cases x with
  | error e => exact ⟨hkept, rises_refl s⟩
  | ok t =>
    have hgoes := hx t rfl
    refine ⟨⟨hkept.top, fun side' => ?_, hkept.told⟩, fun side' => ?_⟩
    · simp only [Marking.settle, Function.update_apply]
      split_ifs
      · exact hgoes.orderly
      · exact hkept.held side'
    · simp only [Marking.settle, Function.update_apply]
      split_ifs with hside
      · subst hside
        exact hgoes.rises
      · exact (s.held side').rises_refl

theorem Kept.step (hkept : Kept s) (turn : Turn) :
    Kept (s.step C h channel turn) ∧ s.Rises (s.step C h channel turn) := by
  have htop := hkept.top
  cases turn with
  | assign =>
    have hup : s.top ≤ if s.top < Int64.maxValue then s.top + 1 else s.top := by grind
    refine ⟨⟨Int64.le_trans htop hup, fun side => (hkept.held side).mono hup, ?_⟩, rises_refl s⟩
    intro marks hmarks m hm
    obtain ⟨hread, hdelivered⟩ := hkept.told marks hmarks m hm
    exact ⟨hread, Int64.le_trans hdelivered hup⟩
  | change side rows =>
    simp only [Marking.step]
    refine hkept.settle fun t ht => ?_
    obtain rfl := Except.ok.inj ht
    refine ⟨⟨fun seq hseq => ?_, (hkept.held side).inside⟩, (s.held side).rises_refl⟩
    obtain ⟨hmem, hbounds⟩ := ExtTreeMap.mem_filter.mp hseq
    simpa using hbounds
  | fetch side caller since receipts =>
    refine hkept.settle fun t ht => ?_
    cases hfetch : (s.held side).fetch C (h side) channel caller since receipts with
    | error e =>
      rw [hfetch] at ht
      cases ht
    | ok p =>
      rw [hfetch] at ht
      obtain rfl := Except.ok.inj ht
      exact Reading.fetch_goes (hkept.held side) hfetch
  | setCursor side caller read receipts =>
    exact hkept.settle fun t ht => Reading.setCursor_goes htop (hkept.held side) ht
  | raiseDelivered side caller read receipts =>
    exact hkept.settle fun t ht => Reading.raiseDelivered_goes htop (hkept.held side) ht
  | setCursorForwarded side caller read receipts =>
    exact hkept.settle fun t ht => Reading.setCursorForwarded_goes htop (hkept.held side) ht
  | answer =>
    simp only [Marking.step]
    split
    · rename_i marks hmarks
      refine ⟨⟨htop, hkept.held, fun marks' hmarks' => ?_⟩, rises_refl s⟩
      rcases mem_concat.mp hmarks' with hold | rfl
      · exact hkept.told marks' hold
      · exact Reading.allCursors_within htop (hkept.held .origin) hmarks
    · exact ⟨hkept, rises_refl s⟩
  | merge i =>
    simp only [Marking.step]
    split
    · rename_i marks hmarks
      refine hkept.settle fun t ht => ?_
      obtain rfl := Except.ok.inj ht
      exact Reading.mergeCursors_goes (hkept.held .copy)
        (hkept.told marks (List.mem_of_getElem? hmarks))
    · exact ⟨hkept, rises_refl s⟩

/-- Over any run of fetches, read marks set here or carried from a copy, and marks pulled by a copy
of an honest origin, no mark is ever lowered, none is past what was delivered, and nothing is
delivered past what was assigned. -/
theorem read_marks_inside (C : Crypto) (h : Side → Host) (channel : Bytes32)
    (turns : List Turn) :
    Always Inside (Marking.step C h channel) start turns ∧
      Each (fun s turn => s.Rises (s.step C h channel turn)) (Marking.step C h channel) start
        turns := by
  have hany : Each (fun _ _ => True) (Marking.step C h channel) start turns :=
    each_of_mem (fun _ _ _ => trivial) start
  have hkeep : ∀ s turn, Kept s → True → Kept (Marking.step C h channel s turn) :=
    fun s turn hkept _ => (hkept.step turn).1
  refine ⟨(hany.always hkeep kept_start).imp fun s hkept => hkept.inside, ?_⟩
  exact hany.imp_of hkeep (fun s turn hkept _ => (hkept.step turn).2) kept_start

end Marking
end Sqex.Exchange
