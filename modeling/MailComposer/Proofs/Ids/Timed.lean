import MailComposer.Proofs.Ids.Drawn

/-!
Ids made of a time, a number and a random ending. Main statement: an id falls into four parts at its
hyphens, the third of which is its number, so that no two ids of one source are alike, whatever the
clock shows and whatever is drawn, while the count has room.
-/
namespace MailComposer.TimedIds
open IdSource

/-- What stands between the hyphens of an id. -/
def parts (id : String) : List String := (id.toList.splitOn '-').map String.ofList

private theorem base36Digit_ne_hyphen (d : Fin 36) : base36Digit d ≠ '-' := by
  revert d
  decide

private theorem hyphen_not_mem_base36Digits (n : Nat) : '-' ∉ base36Digits n := by
  induction n using base36Digits.induct with
  | case1 n h =>
    rw [base36Digits, dif_pos h, List.mem_singleton]
    exact (base36Digit_ne_hyphen _).symm
  | case2 n h ih =>
    rw [base36Digits, dif_neg h, List.mem_append, List.mem_singleton]
    exact not_or.mpr ⟨ih, (base36Digit_ne_hyphen _).symm⟩

private theorem hyphen_not_mem_number (n : Nat) : '-' ∉ (toString n).toList := by
  rw [Nat.toString_eq_ofList_toDigits, String.toList_ofList]
  intro h
  exact absurd (Nat.isDigit_of_mem_toDigits (by decide) (by decide) h) (by decide)

private theorem toList_text (count : Nat) (m : Moment) :
    (text count m).toList = ['-'].intercalate ["comp".toList, base36Digits m.time,
      (toString count).toList, m.suffix.toList.map base36Digit] := by
  have lead : "comp-".toList = "comp".toList ++ ['-'] := by simp
  unfold text
  rw [String.toList_ofList, lead]
  simp only [List.intercalate, List.intersperse, List.flatten_cons, List.flatten_nil,
    List.append_assoc, List.cons_append, List.nil_append, List.append_nil]

theorem parts_text (count : Nat) (m : Moment) :
    parts (text count m) = ["comp", String.ofList (base36Digits m.time), toString count,
      String.ofList (m.suffix.toList.map base36Digit)] := by
  have ending : '-' ∉ m.suffix.toList.map base36Digit := fun h => by
    obtain ⟨d, -, hd⟩ := List.mem_map.mp h
    exact base36Digit_ne_hyphen d hd
  rw [parts, toList_text, List.splitOn_intercalate]
  · simp only [List.map_cons, List.map_nil, String.ofList_toList]
  · simp only [List.forall_mem_cons, List.not_mem_nil, false_imp_iff, implies_true, and_true]
    exact ⟨by simp, hyphen_not_mem_base36Digits _, hyphen_not_mem_number _, ending⟩
  · exact List.cons_ne_nil _ _

private theorem next_of_room (ids : TimedIds) (h : ids.count.toNat + 1 < UInt64.size) :
    (next ids).1 = text (ids.count.toNat + 1) (ids.moments ids.count.toNat) ∧
      (next ids).2.moments = ids.moments ∧ (next ids).2.count.toNat = ids.count.toNat + 1 := by
  have hc : (ids.count + 1).toNat = ids.count.toNat + 1 := by
    rw [UInt64.toNat_add, UInt64.toNat_one, Nat.mod_eq_of_lt h]
  exact ⟨congrArg (text · (ids.moments ids.count.toNat)) hc, rfl, hc⟩

theorem drawn_eq_map (ids : TimedIds) (n : Nat) (h : ids.count.toNat + n < UInt64.size) :
    drawn ids n = (List.range' ids.count.toNat n).map fun k => text (k + 1) (ids.moments k) := by
  induction n generalizing ids with
  | zero => rfl
  | succ n ih =>
    obtain ⟨hid, hmoments, hcount⟩ := next_of_room ids (by omega)
    have hrest := ih (next ids).2 (by omega)
    rw [drawn_succ, hrest, hid, hmoments, hcount, List.range'_succ, List.map_cons]

/-- The third part of every id is the number of the call that gave it, counted from the first call
on the source, and no id is given twice, for as many calls as the count can number. -/
theorem numbered_apart (ids : TimedIds) (n : Nat) (h : ids.count.toNat + n < UInt64.size) :
    (drawn ids n).map parts = (List.range' ids.count.toNat n).map (fun k =>
        ["comp", String.ofList (base36Digits (ids.moments k).time), toString (k + 1),
          String.ofList ((ids.moments k).suffix.toList.map base36Digit)]) ∧
      (drawn ids n).Nodup := by
  rw [drawn_eq_map ids n h]
  refine ⟨?cut, List.Nodup.map (fun j k h => ?apart) (List.nodup_range' ..)⟩
  case cut => simp only [List.map_map, Function.comp_def, parts_text]
  case apart =>
    have cut := congrArg parts h
    rw [parts_text, parts_text] at cut
    have third := congrArg (·[2]?) cut
    exact Nat.succ.inj (Nat.repr_inj.mp (Option.some.inj third))

/-- A clock that goes back, and the same ending twice. -/
def wornClock : TimedIds where
  count := 0
  moments k := ⟨71 - 36 * k, Vector.replicate 6 ⟨35, by decide⟩⟩

theorem numbered_apart_wornClock :
    wornClock.count.toNat + 2 < UInt64.size ∧
      drawn wornClock 2 = ["comp-1z-1-zzzzzz", "comp-z-2-zzzzzz"] ∧
      (drawn wornClock 2).map parts =
        [["comp", "1z", "1", "zzzzzz"], ["comp", "z", "2", "zzzzzz"]] ∧
      (drawn wornClock 2).Nodup := by
  obtain ⟨hparts, hnodup⟩ := numbered_apart wornClock 2 (by decide)
  exact ⟨by decide, by decide +kernel, hparts.trans (by decide +kernel), hnodup⟩

end MailComposer.TimedIds
