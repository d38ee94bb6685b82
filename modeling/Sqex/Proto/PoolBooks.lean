import Sqex.Proto.Pool
import Sqex.Lib.Runs

/-! What the pool knows of its unacknowledged prekeys: the books hold until an
envelope opens with one, since `take` forgets the secret and not the entry. -/
namespace Sqex.Pool
open Std Runs
variable {C : Crypto} {p : Pool}

/-- The books: every unpublished id has its secret, so the published count never
goes below zero and every id counted unpublished is listed exactly once. -/
structure Booked (C : Crypto) (p : Pool) : Prop where
  held : ∀ id ∈ p.unpublished, id ∈ p.oneTime
  noUnderflow : p.unpublished.size ≤ p.oneTime.size
  listed : (p.unpublishedPrekeys C).map Prekey.id = p.unpublished.toList
  counted : p.unpublishedCount = UInt16.ofNat (p.unpublishedPrekeys C).length

/-- Whether the step is a `take` that opens with a prekey no exchange has
acknowledged yet. -/
def opensUnacknowledged (p : Pool) : Op → Prop
  | .take id => id ≠ 0 ∧ id ∉ p.spent ∧ id ∈ p.oneTime ∧ id ∈ p.unpublished
  | _ => False

theorem unpublishedPrekeys_ids (h : ∀ id ∈ p.unpublished, id ∈ p.oneTime) :
    (p.unpublishedPrekeys C).map Prekey.id = p.unpublished.toList := by
  have hids : ∀ id ∈ p.unpublished.toList, id ∈ p.oneTime :=
    fun id hid => h id (by simpa using hid)
  unfold unpublishedPrekeys
  generalize p.unpublished.toList = ids at hids ⊢
  induction ids with
  | nil => rfl
  | cons id ids ih =>
    obtain ⟨secret, hsecret⟩ : ∃ secret, p.oneTime[id]? = some secret :=
      Option.isSome_iff_exists.mp (ExtTreeMap.mem_iff_isSome_getElem?.mp (hids id (by simp)))
    have hrest := ih fun j hj => hids j (by simp [hj])
    simp only [List.filterMap_cons, hsecret, Option.map_some, List.map_cons,
      Prekey.forSecret_id, hrest]

theorem booked_iff :
    Booked C p ↔ ∀ id ∈ p.unpublished, id ∈ p.oneTime := by
  refine ⟨Booked.held, fun h => ⟨h, size_le_of_forall_mem h, unpublishedPrekeys_ids h, ?_⟩⟩
  have hlen := congrArg List.length (unpublishedPrekeys_ids (C := C) h)
  rw [List.length_map, ExtTreeSet.length_toList] at hlen
  rw [unpublishedCount, hlen]

theorem booked_new (C : Crypto) (seed : Bytes32) : Booked C (new seed) := by
  rw [booked_iff]
  intro id hid
  simp [new] at hid

theorem held_mintEach (h : ∀ id ∈ p.unpublished, id ∈ p.oneTime) (secrets : List Bytes32) :
    ∀ id ∈ (p.mintEach C secrets).1.unpublished, id ∈ (p.mintEach C secrets).1.oneTime := by
  induction secrets generalizing p with
  | nil => exact h
  | cons secret rest ih =>
    refine ih (p := (p.mintNext C secret).1) ?_
    intro id hid
    simp only [mintNext, ExtTreeSet.mem_insert, ExtTreeMap.mem_insert] at hid ⊢
    exact hid.imp_right (h id)

theorem held_discard (h : ∀ id ∈ p.unpublished, id ∈ p.oneTime) (ids : List UInt32) :
    ∀ id ∈ (p.discardUnpublished ids).1.unpublished,
      id ∈ (p.discardUnpublished ids).1.oneTime := by
  induction ids generalizing p with
  | nil => exact h
  | cons id ids ih =>
    refine ih (p := (p.discardNext id).1) ?_
    intro j hj
    unfold discardNext at hj ⊢
    split_ifs at hj ⊢ with hid
    · simp only [ExtTreeSet.mem_erase, ExtTreeMap.mem_erase] at hj ⊢
      exact ⟨hj.1, h j hj.2⟩
    · exact h j hj

theorem held_step (h : ∀ id ∈ p.unpublished, id ∈ p.oneTime) (op : Op) :
    (∀ id ∈ (p.step C op).unpublished, id ∈ (p.step C op).oneTime) ↔
      ¬ p.opensUnacknowledged op := by
  cases op with
  | mintOneTime n draw => simpa [opensUnacknowledged, step, mintOneTime] using held_mintEach h _
  | mintFallback secret => exact iff_of_true h (by simp [opensUnacknowledged])
  | markPublished ids =>
    suffices ∀ id ∈ (p.markPublished ids).unpublished, id ∈ p.oneTime by
      simpa [opensUnacknowledged, step, markPublished] using this
    exact fun id hid => h id ((p.mem_unpublished_markPublished ids id).mp hid).1
  | discardUnpublished ids => simpa [opensUnacknowledged, step] using held_discard h ids
  | restart order =>
    refine iff_of_true (fun id hid => ?_) (by simp [opensUnacknowledged])
    rw [step, load_save]
    exact ((p.mem_unpublished_restart order id).mp hid).2
  | take id =>
    obtain ⟨secret, hone, hzero, hspent, htake⟩ | ⟨secret, _, hone, _, _, htake⟩ | ⟨e, htake⟩ :=
      p.take_cases id
    · have hmem : id ∈ p.oneTime := ExtTreeMap.mem_iff_isSome_getElem?.mpr (by simp [hone])
      simp only [step, htake, opensUnacknowledged, hzero, hspent, hmem, not_false_eq_true,
        ne_eq, true_and, ExtTreeMap.mem_erase]
      constructor
      · intro hall hun
        simpa using (hall id hun).1
      · intro hun j hj
        refine ⟨fun heq => hun ?_, h j hj⟩
        rwa [LawfulEqCmp.compare_eq_iff_eq.mp heq]
    · simp only [step, htake, opensUnacknowledged, hone, false_and, and_false, not_false_eq_true,
        iff_true]
      exact h
    · have hsame : p.step C (.take id) = p := by simp [step, htake]
      rw [hsame]
      refine iff_of_true h ?_
      rintro ⟨hzero, hspent, hone, _⟩
      obtain ⟨secret, hsecret⟩ :=
        Option.isSome_iff_exists.mp (ExtTreeMap.mem_iff_isSome_getElem?.mp hone)
      simp [take, hzero, hspent, hsecret] at htake

/-- The books hold throughout a run exactly when no step of it opens an envelope
with a prekey whose publishing was not acknowledged. -/
theorem booked_run_iff (C : Crypto) (seed : Bytes32) (ops : List Op) :
    Always (Booked C) (step C) (new seed) ops ↔
      Each (fun p op => ¬ p.opensUnacknowledged op) (step C) (new seed) ops := by
  refine always_iff_each (fun p op hp => ?_) (booked_new C seed)
  rw [booked_iff]
  exact held_step hp.held op

/-- One prekey minted and opened before its publish was acknowledged: the entry
outlives the secret, the count wraps, and the list misses what is counted. -/
theorem books_broken :
    ¬ (∀ ops, Always (Booked Crypto.toy) (step Crypto.toy) (new 0) ops) ∧
      (run (step Crypto.toy) (new 0) [.mintOneTime 1 (fun _ => 5), .take 1]).publishedLeft
        = 65535 := by
  refine ⟨fun h => ?_, by decide⟩
  have hend := always_iff_prefixes.mp (h [.mintOneTime 1 (fun _ => 5), .take 1]) _
    List.prefix_rfl
  have hone : (1 : UInt32) ∈ (run (step Crypto.toy) (new 0)
      [.mintOneTime 1 (fun _ => 5), .take 1]).oneTime := hend.held 1 (by decide)
  exact absurd hone (by decide)

end Sqex.Pool
