import Mathlib.Data.List.DropRight

/-! Text by lines and words: how a text falls into pieces at a mark, and what putting marks between
pieces, or white space round them, does to it. -/
namespace Sqex.Lines
variable {α : Type*}

def words (white : α → Bool) (cs : List α) : List (List α) :=
  (cs.splitOnP white).filter fun w => !w.isEmpty

structure Word (white : α → Bool) (cs : List α) : Prop where
  ne_nil : cs ≠ []
  solid : ∀ c ∈ cs, white c = false

instance Word.instDecidable (white : α → Bool) (cs : List α) : Decidable (Word white cs) :=
  decidable_of_iff (cs.isEmpty = false ∧ ∀ c ∈ cs, white c = false)
    ⟨fun h => ⟨by simpa using h.1, h.2⟩, fun h => ⟨by simpa using h.ne_nil, h.solid⟩⟩

section words
variable {white : α → Bool} {cs ds : List α} {c : α}

@[simp] theorem words_nil : words white [] = [] := rfl

theorem words_append_cons (hc : white c = true) :
    words white (cs ++ c :: ds) = words white cs ++ words white ds := by
  rw [words, List.splitOnP_append_cons cs ds hc, List.filter_append]
  rfl

theorem words_cons (hc : white c = true) : words white (c :: ds) = words white ds := by
  simpa using (words_append_cons hc : words white ([] ++ c :: ds) = _)

theorem Word.words_eq (h : Word white cs) : words white cs = [cs] := by
  simp [words, List.splitOnP_eq_singleton h.solid, h.ne_nil]

theorem words_white (hcs : ∀ c ∈ cs, white c = true) : words white cs = [] := by
  induction cs with
  | nil => rfl
  | cons c cs ih =>
    rw [words_cons (hcs c List.mem_cons_self)]
    exact ih fun d hd => hcs d (List.mem_cons_of_mem c hd)

theorem words_append_white (hds : ∀ c ∈ ds, white c = true) :
    words white (cs ++ ds) = words white cs := by
  cases ds with
  | nil => rw [List.append_nil]
  | cons d ds =>
    rw [words_append_cons (hds d List.mem_cons_self),
      words_white fun c hc => hds c (List.mem_cons_of_mem d hc), List.append_nil]

theorem words_dropWhile (cs : List α) : words white (cs.dropWhile white) = words white cs := by
  induction cs with
  | nil => rfl
  | cons c cs ih =>
    by_cases hc : white c = true
    · rw [List.dropWhile_cons_of_pos hc, ih, words_cons hc]
    · rw [List.dropWhile_cons_of_neg hc]

theorem solid_of_mem_splitOnP {w : List α} (h : w ∈ cs.splitOnP white) :
    ∀ c ∈ w, white c = false ∧ c ∈ cs := by
  induction cs generalizing w with
  | nil =>
    rw [List.splitOnP_nil, List.mem_singleton] at h
    simp [h]
  | cons d cs ih =>
    rw [List.splitOnP_cons_eq_if_modifyHead] at h
    split at h
    · cases List.mem_cons.mp h with
      | inl hempty => simp [hempty]
      | inr hrest => exact fun c hc => ⟨(ih hrest c hc).1, List.mem_cons_of_mem d (ih hrest c hc).2⟩
    · next hd =>
      cases hpieces : cs.splitOnP white with
      | nil => simp [hpieces] at h
      | cons first rest =>
        rw [hpieces, List.modifyHead_cons, List.mem_cons] at h
        intro c hc
        cases h with
        | inl hfirst =>
          rw [hfirst, List.mem_cons] at hc
          cases hc with
          | inl hself => exact ⟨by simpa [hself] using hd, by simp [hself]⟩
          | inr hin =>
            have hold := ih (by simp [hpieces] : first ∈ cs.splitOnP white) c hin
            exact ⟨hold.1, List.mem_cons_of_mem d hold.2⟩
        | inr hlater =>
          have hold := ih (by simp [hpieces, hlater] : w ∈ cs.splitOnP white) c hc
          exact ⟨hold.1, List.mem_cons_of_mem d hold.2⟩

theorem word_of_mem_words {w : List α} (h : w ∈ words white cs) :
    Word white w ∧ ∀ c ∈ w, c ∈ cs := by
  obtain ⟨hpiece, hne⟩ := List.mem_filter.mp h
  have hsolid := solid_of_mem_splitOnP hpiece
  exact ⟨⟨by simpa using hne, fun c hc => (hsolid c hc).1⟩, fun c hc => (hsolid c hc).2⟩

end words

/-! A text without the white space round it. -/

def trim (white : α → Bool) (cs : List α) : List α := (cs.dropWhile white).rdropWhile white

theorem trim_append (white : α → Bool) (cs : List α) :
    trim white cs ++ (cs.dropWhile white).rtakeWhile white = cs.dropWhile white :=
  List.rdropWhile_append_rtakeWhile

theorem words_trim (white : α → Bool) (cs : List α) :
    words white (trim white cs) = words white cs := by
  have hsplit := trim_append white cs
  rw [← words_dropWhile cs, ← hsplit, words_append_white]
  exact fun c hc => List.mem_rtakeWhile_imp hc

section mark
variable [DecidableEq α] {mark : α} {cs ds : List α}

def splitOnce (mark : α) : List α → Option (List α × List α)
  | [] => none
  | c :: cs =>
    if c = mark then some ([], cs)
    else (splitOnce mark cs).map fun p => (c :: p.1, p.2)

def before (mark : α) (cs : List α) : List α := cs.takeWhile (· ≠ mark)

theorem splitOnce_eq (mark : α) (cs : List α) :
    (splitOnce mark cs).elim cs Prod.fst = before mark cs := by
  induction cs with
  | nil => rfl
  | cons c cs ih =>
    by_cases hc : c = mark
    · simp [splitOnce, before, hc]
    · rw [before, List.takeWhile_cons_of_pos (by simp [hc]), splitOnce, if_neg hc]
      rw [before] at ih
      rw [← ih]
      cases splitOnce mark cs with
      | none => rfl
      | some p => rfl

theorem before_append (hcs : mark ∉ cs) : before mark (cs ++ ds) = cs ++ before mark ds := by
  rw [before, List.takeWhile_append_of_pos]
  · rfl
  · intro c hc
    have hne : c ≠ mark := ne_of_mem_of_not_mem hc hcs
    simpa using hne

theorem mem_before {c : α} (h : c ∈ before mark cs) : c ∈ cs ∧ c ≠ mark :=
  ⟨(List.takeWhile_sublist _).subset h, by simpa using List.mem_takeWhile_imp h⟩

theorem before_eq_self (hcs : mark ∉ cs) : before mark cs = cs := by
  simpa [before] using (before_append hcs : before mark (cs ++ []) = _)

theorem before_append_mark (hcs : mark ∉ cs) : before mark (cs ++ mark :: ds) = cs := by
  rw [before_append hcs, before, List.takeWhile_cons_of_neg (by simp), List.append_nil]

variable {white : α → Bool}

theorem words_before_append_white (hmark : white mark = false) (hds : ∀ c ∈ ds, white c = true) :
    words white (before mark (cs ++ ds)) = words white (before mark cs) := by
  by_cases hcs : mark ∈ cs
  · obtain ⟨xs, ys, rfl, hxs⟩ := List.eq_append_cons_of_mem hcs
    rw [List.append_assoc, List.cons_append, before_append_mark hxs, before_append_mark hxs]
  · have hno : mark ∉ ds := fun hin => by simp [hds mark hin] at hmark
    rw [before_append hcs, before_eq_self hno, before_eq_self hcs, words_append_white hds]

theorem words_before_dropWhile (hmark : white mark = false) (cs : List α) :
    words white (before mark (cs.dropWhile white)) = words white (before mark cs) := by
  induction cs with
  | nil => rfl
  | cons c cs ih =>
    by_cases hc : white c = true
    · have hne : c ≠ mark := fun he => by simp [← he, hc] at hmark
      have hbefore : before mark (c :: cs) = c :: before mark cs := by
        simp [before, hne]
      rw [List.dropWhile_cons_of_pos hc, ih, hbefore, words_cons hc]
    · rw [List.dropWhile_cons_of_neg hc]

theorem words_before_trim (hmark : white mark = false) (cs : List α) :
    words white (before mark (trim white cs)) = words white (before mark cs) := by
  rw [← words_before_dropWhile hmark cs, ← trim_append white cs,
    words_before_append_white hmark fun c hc => List.mem_rtakeWhile_imp hc]

def stripEnd (mark : α) (cs : List α) : List α :=
  if cs.getLast? = some mark then cs.dropLast else cs

theorem stripEnd_append (mark : α) (cs : List α) :
    ∃ ds, stripEnd mark cs ++ ds = cs ∧ ∀ d ∈ ds, d = mark := by
  rw [stripEnd]
  split
  · next hlast => exact ⟨[mark], List.dropLast_append_getLast? mark hlast, by simp⟩
  · exact ⟨[], by simp⟩

def lines (newline ret : α) (cs : List α) : List (List α) :=
  let pieces := cs.splitOn newline
  (if pieces.getLast? = some [] then pieces.dropLast else pieces).map (stripEnd ret)

theorem lines_nil (newline ret : α) : lines newline ret [] = [] := by
  simp [lines, List.splitOn_eq_splitOnP]

theorem lines_append {newline : α} (ret : α) (hcs : newline ∉ cs) (ds : List α) :
    lines newline ret (cs ++ newline :: ds) = stripEnd ret cs :: lines newline ret ds := by
  have hpieces : (cs ++ newline :: ds).splitOn newline = cs :: ds.splitOn newline := by
    refine List.splitOnP_append_cons_of_forall_mem (fun c hc => ?_) newline (by simp) ds
    simpa using ne_of_mem_of_not_mem hc hcs
  have hne : ds.splitOn newline ≠ [] := List.splitOnP_ne_nil _ ds
  simp only [lines, hpieces]
  rw [List.getLast?_cons_of_ne_nil hne, List.dropLast_cons_of_ne_nil hne]
  split
  · rfl
  · rfl

end mark

theorem filterMap_eq_map_iff {β : Type*} {f : α → Option β} {g : α → β} {xs : List α} :
    xs.filterMap f = xs.map g ↔ ∀ x ∈ xs, f x = some (g x) := by
  constructor
  · intro h
    induction xs with
    | nil => simp
    | cons x xs ih =>
      cases hx : f x with
      | none =>
        have hlength := congrArg List.length h
        rw [List.filterMap_cons_none hx, List.length_map, List.length_cons] at hlength
        have hle := List.length_filterMap_le f xs
        omega
      | some y =>
        rw [List.filterMap_cons_some hx, List.map_cons, List.cons.injEq] at h
        rw [List.forall_mem_cons, hx, h.1]
        exact ⟨rfl, ih h.2⟩
  · exact fun h => (List.filterMap_congr h).trans (by simp [List.filterMap_eq_map'])

end Sqex.Lines
