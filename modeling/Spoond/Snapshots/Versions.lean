import Spoond.Snapshots.Steps

namespace Spoond.Snapshots

open Lib Lib.Pool

def handedOut (log : List (Owner × Name × Nat)) (owner : Owner) (name : Name) : List Nat :=
  (log.filter fun e => e.1 = owner && e.2.1 = name).map fun e => e.2.2

structure Ascending (s : World) : Prop where
  ascend : ∀ o x, (handedOut s.log o x).Pairwise (· < ·)
  below : ∀ o x, ∀ v ∈ handedOut s.log o x, v ≤ s.db.highWater o x

theorem handedOut_append (log : List (Owner × Name × Nat)) (row : Row) (o : Owner) (x : Name) :
    handedOut (log ++ [(row.owner, row.name, row.version)]) o x =
      if (o, x) = (row.owner, row.name) then handedOut log o x ++ [row.version] else handedOut log o x := by
  split_ifs with hkey
  · simp only [Prod.mk.injEq] at hkey
    obtain ⟨rfl, rfl⟩ := hkey
    simp [handedOut]
  · have hother : (row.owner = o && row.name = x) = false := by
      simp only [Prod.mk.injEq, not_and] at hkey
      simp only [Bool.and_eq_false_imp, decide_eq_true_eq, decide_eq_false_iff_not]
      exact fun ho hx => hkey ho.symm hx.symm
    simp [handedOut, hother]

theorem stable_ascending : Stable entry next Free (fun s _ => Ascending s) where
  spawn _ _ _ _ h := h
  run env s front task back n _ hn h := by
    rcases next_stored hn with hthin | ⟨req, b, db, row, -, hinsert, rfl⟩
    · refine ⟨fun o x => ?_, fun o x v hv => ?_⟩
      · rw [hthin.log]
        exact h.ascend o x
      · rw [hthin.water]
        exact h.below o x v (hthin.log ▸ hv)
    · obtain ⟨-, hrow, -, hwater⟩ := Db.insert_eq hinsert
      have hkey : (row.owner, row.name) = (req.owner, req.name) := by rw [hrow]; rfl
      have habove : s.db.highWater req.owner req.name < row.version := by
        rw [hrow]
        exact Nat.lt_succ_of_le (le_max_right _ _)
      refine ⟨fun o x => ?_, fun o x v hv => ?_⟩
      · simp only [handedOut_append, hkey]
        split_ifs with hox
        · simp only [Prod.mk.injEq] at hox
          obtain ⟨rfl, rfl⟩ := hox
          rw [List.pairwise_append]
          refine ⟨h.ascend _ _, List.pairwise_singleton _ _, fun v hv w hw => ?_⟩
          rw [List.mem_singleton.1 hw]
          exact lt_of_le_of_lt (h.below _ _ v hv) habove
        · exact h.ascend o x
      · simp only [handedOut_append, hkey] at hv
        simp only [World.setDb, hwater]
        change v ≤ if (o, x) = (req.owner, req.name) then row.version else s.db.highWater o x
        split_ifs at hv ⊢ with hox
        · simp only [Prod.mk.injEq] at hox
          obtain ⟨rfl, rfl⟩ := hox
          rcases List.mem_append.1 hv with hv | hv
          · exact (h.below _ _ v hv).trans habove.le
          · rw [List.mem_singleton.1 hv]
        · exact h.below o x v hv

-- Whatever the tables hold at first, and whatever is deleted or pruned on the way, the numbers handed out for a
-- name ascend.
theorem versions_strictly_increase (s : World) (acts : List (Action Task Env)) (q : System) (owner : Owner)
    (name : Name) (hlog : s.log = []) (hrun : Run step Any { shared := s } acts q) :
    (handedOut q.shared.log owner name).Pairwise (· < ·) := by
  have hstart : Ascending s := ⟨by simp [hlog, handedOut], by simp [hlog, handedOut]⟩
  have hfree : Run step (Meets Free) { shared := s } acts q := hrun.weaken fun p a _ => meets_free p a
  exact (stable_ascending.holds hfree hstart).ascend owner name

section

def oneLease : World :=
  { cfg := {}, leases := [{ id := "l", owner := "ada" }], db := { leases := [{ id := "l" }] } }

def saveWarm (i count : Nat) (buildID : BuildID) : List (Action Task Env) :=
  .spawn (.save { owner := "ada", lease := "l", name := "warm" } .lease) :: Action.runs i count { buildID := buildID }

def deleteWarm (i version count : Nat) : List (Action Task Env) :=
  .spawn (.delete { owner := "ada", name := "warm", version := version, force := true } .look) ::
    Action.runs i count {}

def savesAndDeletes : List (Action Task Env) :=
  saveWarm 0 19 "b1" ++ saveWarm 2 18 "b2" ++ deleteWarm 4 2 2 ++ saveWarm 5 18 "b3" ++ deleteWarm 7 0 2 ++
    saveWarm 8 19 "b4"

theorem versions_after_deletes : ∃ q, Run step Any { shared := oneLease } savesAndDeletes q ∧
      handedOut q.shared.log "ada" "warm" = [1, 2, 3, 4] ∧ q.shared.db.rows.map Row.version = [4] ∧
      (handedOut q.shared.log "ada" "warm").Pairwise (· < ·) := by
  obtain ⟨q, hrun, hout, hrows⟩ : ∃ q, Run step Any { shared := oneLease } savesAndDeletes q ∧
      handedOut q.shared.log "ada" "warm" = [1, 2, 3, 4] ∧ q.shared.db.rows.map Row.version = [4] := by
    exact Run.reaches (by decide +kernel)
  exact ⟨q, hrun, hout, hrows, versions_strictly_increase oneLease savesAndDeletes q "ada" "warm" rfl hrun⟩

end

end Spoond.Snapshots
