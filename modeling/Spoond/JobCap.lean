import Spoond.Lib.Run
import Mathlib.Order.Nat

namespace Spoond.JobCap

open Lib List

abbrev Byte := UInt8

def newline : Byte := 10

def jobPunchBlockBytes : Nat := 4096

structure Counters where
  dropped : Nat := 0
  newlines : Nat := 0
  endsWithNewline : Bool := false
  deriving DecidableEq

-- What the last line of the cap file in the guest says; a torn line is not read.
inductive Sidecar
  | missing
  | torn
  | line (c : Counters)
  deriving DecidableEq

-- Where a pass stands: before its punch of the region between the two counts, its line in the sidecar and its record.
inductive Phase
  | idle
  | punch (start : Nat) (next : Counters)
  | note (next : Counters)
  | record (next : Counters)
  deriving DecidableEq

def Phase.noting : Phase → Bool
  | .note _ => true
  | _ => false

structure Answer where
  start : Nat
  data : List Byte
  punched : Nat
  deriving DecidableEq

-- One stream of a job. `stream` is all that the guest wrote, `punched` how much of its front is gone from the file;
-- `rows` are the dropped counts that the record has had, and `answers` what was read.
structure World where
  stream : List Byte := []
  file : List Byte := []
  punched : Nat := 0
  row : Counters := {}
  rows : List Nat := [0]
  sidecar : Sidecar := .missing
  phase : Phase := .idle
  answers : List Answer := []

def jobCapTarget (size dropped kept : Nat) : Nat :=
  if kept = 0 ∨ size ≤ kept then 0
  else
    let target := (size - kept) / jobPunchBlockBytes * jobPunchBlockBytes
    if target ≤ dropped then 0 else target

-- The counters a pass goes on from: the sidecar's where they are ahead of the record's.
def live (row : Counters) : Sidecar → Counters
  | .line c =>
    if row.dropped < c.dropped then
      { dropped := c.dropped, newlines := max row.newlines c.newlines, endsWithNewline := c.endsWithNewline }
    else row
  | _ => row

def capJobStream (w : World) (c : Counters) (kept : Nat) : Phase :=
  let target := jobCapTarget w.file.length c.dropped kept
  if w.file.length < c.dropped then .idle
  else if target ≤ c.dropped then
    if w.row.dropped < c.dropped ∨ w.row.newlines < c.newlines then .record c else .idle
  else
    let data := (w.file.drop c.dropped).take (target - c.dropped)
    .punch c.dropped
      { dropped := target, newlines := c.newlines + data.count newline,
        endsWithNewline := data.getLast? = some newline }

def World.punchHole (w : World) (start target : Nat) : World :=
  { w with
    file := w.file.take start ++ replicate (target - start) 0 ++ w.file.drop target
    punched := max w.punched target }

def updateJobSkipped (c row : Counters) : Counters where
  dropped := max row.dropped c.dropped
  newlines := max row.newlines c.newlines
  endsWithNewline := if row.dropped < c.dropped then c.endsWithNewline else row.endsWithNewline

-- No offset asks for the end of the file.
def readJobRange (w : World) (dropped : Nat) (offset : Option Nat) (limit : Nat) : Answer :=
  let start := max dropped (offset.getD (w.file.length - limit))
  { start := start, data := (w.file.drop start).take limit, punched := w.punched }

-- A late call has its effect and fails.
inductive Reply
  | ok
  | late
  | failed
  deriving DecidableEq

-- `read` says whether the sidecar can be read. A read of the output goes by a record it has loaded before.
inductive Action
  | append (bytes : List Byte)
  | pass (read : Bool)
  | punch (reply : Reply)
  | note (read : Bool) (reply : Reply) (torn : Bool)
  | record (reply : Reply)
  | read (dropped : Nat) (offset : Option Nat) (limit : Nat)

def step (cap : Nat) (w : World) : Action → Option World
  | .append bytes => some { w with stream := w.stream ++ bytes, file := w.file ++ bytes }
  | .pass read =>
    if w.phase = .idle ∧ 0 < cap then
      some { w with
        phase := capJobStream w (live w.row (if read then w.sidecar else .missing)) (cap + jobPunchBlockBytes) }
    else none
  | .punch reply =>
    match w.phase with
    | .punch start next =>
      match reply with
      | .ok => some { w.punchHole start next.dropped with phase := .note next }
      | .late => some { w.punchHole start next.dropped with phase := .idle }
      | .failed => some { w with phase := .idle }
    | _ => none
  | .note read reply torn =>
    match w.phase with
    | .note next =>
      if read = false ∨ w.sidecar = .torn then some { w with phase := .idle }
      else match reply with
        | .ok => some { w with sidecar := .line next, phase := .record next }
        | .late => some { w with sidecar := .line next, phase := .idle }
        | .failed => some { w with sidecar := if torn then .torn else w.sidecar, phase := .idle }
    | _ => none
  | .record reply =>
    match w.phase with
    | .record next =>
      if reply = .failed then some { w with phase := .idle }
      else
        let row := updateJobSkipped next w.row
        some { w with row := row, rows := row.dropped :: w.rows, phase := .idle }
    | _ => none
  | .read dropped offset limit =>
    if dropped ∈ w.rows then some { w with answers := readJobRange w dropped offset limit :: w.answers } else none

structure Sound (cap : Nat) (w : World) : Prop where
  monotone : ∀ d ∈ w.rows, d ≤ w.row.dropped
  aligned : jobPunchBlockBytes ∣ w.row.dropped
  kept : w.row.dropped ≤ w.stream.length - cap ∧
    w.file.drop (w.stream.length - cap) = w.stream.drop (w.stream.length - cap)
  newlines : w.row.newlines = (w.stream.take w.row.dropped).count newline
  reads : ∀ a ∈ w.answers, a.punched ≤ a.start ∧ a.data <+: w.stream.drop a.start

-- A pass reads the sidecar where it is ahead of the record, and once it has punched its line gets there; a read does
-- not fall between these two, and its record is not behind the sidecar.
def Careful (w : World) : Action → Prop
  | .pass read => read = true ∨ live w.row w.sidecar = w.row
  | .punch reply => reply ≠ .late
  | .note read reply _ => read = true ∧ reply = .ok
  | .read dropped _ _ => w.phase.noting = false ∧ (live w.row w.sidecar).dropped ≤ dropped
  | .append _ | .record _ => True

instance (w : World) (a : Action) : Decidable (Careful w a) := by
  unfold Careful
  split <;> infer_instance

structure Exact (stream : List Byte) (limit : Nat) (c : Counters) : Prop where
  newlines : c.newlines = (stream.take c.dropped).count newline
  aligned : jobPunchBlockBytes ∣ c.dropped
  within : c.dropped ≤ limit

-- What is punched is what the live counters say, but for the time between a punch and its line.
structure Inv (cap : Nat) (w : World) : Prop where
  length : w.file.length = w.stream.length
  tail : w.file.drop w.punched = w.stream.drop w.punched
  room : w.punched ≤ w.stream.length - cap
  row : Exact w.stream w.punched w.row
  line : ∀ c, w.sidecar = .line c → Exact w.stream w.punched c
  whole : w.sidecar ≠ .torn
  ahead : w.phase.noting = false → (live w.row w.sidecar).dropped = w.punched
  punching : ∀ start next, w.phase = .punch start next →
    start = w.punched ∧ w.punched ≤ next.dropped ∧ Exact w.stream (w.stream.length - cap) next
  noting : ∀ next, w.phase = .note next ∨ w.phase = .record next → next.dropped = w.punched ∧
    Exact w.stream w.punched next
  rows : ∀ d ∈ w.rows, d ≤ w.row.dropped
  reads : ∀ a ∈ w.answers, a.punched ≤ a.start ∧ a.data <+: w.stream.drop a.start

section
variable {cap limit limit' : Nat} {w t : World} {stream : List Byte} {a c row : Counters} {sidecar : Sidecar}

theorem Exact.grow (h : Exact stream limit c) (hlimit : limit ≤ stream.length) (hle : limit ≤ limit')
    (bytes : List Byte) :
    Exact (stream ++ bytes) limit' c :=
  ⟨by rw [take_append_of_le_length (h.within.trans hlimit), h.newlines], h.aligned, h.within.trans hle⟩

theorem Exact.newlines_le (ha : Exact stream limit a) (hc : Exact stream limit' c) (hle : a.dropped ≤ c.dropped) :
    a.newlines ≤ c.newlines := by
  rw [ha.newlines, hc.newlines]
  exact (take_sublist_take_left hle).count_le _

theorem live_exact (hrow : Exact stream limit row) (hline : ∀ c, sidecar = .line c → Exact stream limit c) :
    Exact stream limit (live row sidecar) := by
  cases sidecar with
  | missing | torn => exact hrow
  | line c =>
    have hc := hline c rfl
    simp only [live]
    split
    · rename_i hlt
      refine ⟨?_, hc.aligned, hc.within⟩
      rw [Nat.max_eq_right (hrow.newlines_le hc hlt.le), hc.newlines]
    · exact hrow

theorem drop_eq_of_le {file : List Byte} {m n : Nat} (h : file.drop m = stream.drop m) (hle : m ≤ n) :
    file.drop n = stream.drop n := by
  obtain ⟨k, rfl⟩ := Nat.exists_eq_add_of_le hle
  rw [← drop_drop, ← drop_drop, h]

theorem Inv.sound (h : Inv cap w) : Sound cap w :=
  ⟨h.rows, h.row.aligned, ⟨h.row.within.trans h.room, drop_eq_of_le h.tail h.room⟩, h.row.newlines, h.reads⟩

theorem Inv.append (h : Inv cap w) (bytes : List Byte) :
    Inv cap { w with stream := w.stream ++ bytes, file := w.file ++ bytes } := by
  have hfits : w.punched ≤ w.stream.length := h.room.trans (Nat.sub_le _ _)
  have hroom : w.stream.length - cap ≤ (w.stream ++ bytes).length - cap := by
    rw [length_append]
    omega
  refine ⟨by simp [h.length], ?_, h.room.trans hroom, h.row.grow hfits le_rfl bytes,
    fun c hc => (h.line c hc).grow hfits le_rfl bytes, h.whole, h.ahead, fun start next hp => ?_, fun next hp => ?_,
    h.rows, fun a ha => ?_⟩
  · rw [drop_append_of_le_length (h.length ▸ hfits), drop_append_of_le_length hfits, h.tail]
  · obtain ⟨hstart, hle, hnext⟩ := h.punching start next hp
    exact ⟨hstart, hle, hnext.grow (Nat.sub_le _ _) hroom bytes⟩
  · exact ⟨(h.noting next hp).1, (h.noting next hp).2.grow hfits le_rfl bytes⟩
  · obtain ⟨hstart, hdata⟩ := h.reads a ha
    refine ⟨hstart, hdata.trans ?_⟩
    rw [drop_append]
    exact prefix_append _ _

theorem Inv.idle (h : Inv cap w) (hphase : w.phase.noting = false) : Inv cap { w with phase := .idle } :=
  { h with ahead := fun _ => h.ahead hphase, punching := nofun, noting := by simp }

theorem jobCapTarget_cases {size dropped kept : Nat} (h : ¬ jobCapTarget size dropped kept ≤ dropped) :
    jobPunchBlockBytes ∣ jobCapTarget size dropped kept ∧ jobCapTarget size dropped kept ≤ size - kept := by
  unfold jobCapTarget at h ⊢
  split
  · simp_all
  · dsimp only
    split
    · simp_all
    · exact ⟨Nat.dvd_mul_left _ _, Nat.div_mul_le_self _ _⟩

theorem Inv.plan (h : Inv cap w) (hphase : w.phase = .idle) : Inv cap
      { w with phase := capJobStream w (live w.row w.sidecar) (cap + jobPunchBlockBytes) } := by
  have hahead := h.ahead (by rw [hphase]; rfl)
  have hlive := live_exact h.row h.line
  unfold capJobStream
  dsimp only
  split
  · exact h.idle (by rw [hphase]; rfl)
  split
  · split
    · exact { h with ahead := fun _ => hahead, punching := nofun, noting := by simp [hahead, hlive] }
    · exact h.idle (by rw [hphase]; rfl)
  · rename_i htarget
    obtain ⟨hdvd, hle⟩ := jobCapTarget_cases htarget
    refine { h with ahead := fun _ => hahead, punching := ?_, noting := by simp }
    rintro start next ⟨⟩
    refine ⟨hahead, hahead ▸ (Nat.not_le.1 htarget).le, ?_, hdvd, ?_⟩
    · have hsum := Nat.add_sub_cancel' (Nat.not_le.1 htarget).le
      dsimp only
      rw [hlive.newlines, ← hsum, take_add, count_append, hsum, hahead, h.tail]
    · have hlen := h.length
      dsimp only
      omega

theorem Inv.punchHole (h : Inv cap w) {start : Nat} {next : Counters} (hphase : w.phase = .punch start next) :
    Inv cap { w.punchHole start next.dropped with phase := .note next } := by
  obtain ⟨rfl, hle, hnext⟩ := h.punching start next hphase
  have hfits : next.dropped ≤ w.file.length := h.length ▸ hnext.within.trans (Nat.sub_le _ _)
  have hmax : max w.punched next.dropped = next.dropped := Nat.max_eq_right hle
  have hmono : ∀ c, Exact w.stream w.punched c → Exact w.stream next.dropped c :=
    fun c hc => ⟨hc.newlines, hc.aligned, hc.within.trans hle⟩
  have hfront : (w.file.take w.punched ++ replicate (next.dropped - w.punched) 0).length = next.dropped := by
    rw [length_append, length_take, length_replicate, Nat.min_eq_left (hle.trans hfits)]
    omega
  simp only [World.punchHole, hmax]
  refine ⟨?_, ?_, hnext.within, hmono _ h.row, fun c hc => hmono c (h.line c hc), h.whole, nofun, nofun, ?_,
    h.rows, h.reads⟩
  · rw [length_append, hfront, length_drop, ← h.length]
    exact Nat.add_sub_cancel' hfits
  · rw [drop_left' hfront]
    exact drop_eq_of_le h.tail hle
  · rintro _ (⟨⟨⟩⟩ | ⟨⟨⟩⟩)
    exact ⟨rfl, hnext.newlines, hnext.aligned, le_rfl⟩

theorem Inv.note (h : Inv cap w) {next : Counters} (hphase : w.phase = .note next) :
    Inv cap { w with sidecar := .line next, phase := .record next } := by
  obtain ⟨hdropped, hnext⟩ := h.noting next (.inl hphase)
  refine { h with line := ?_, whole := by simp, ahead := fun _ => ?_, punching := by simp, noting := ?_ }
  · rintro _ ⟨⟩
    exact hnext
  · have hrow := h.row.within
    simp only [live]
    split
    · exact hdropped
    · omega
  · rintro _ (⟨⟨⟩⟩ | ⟨⟨⟩⟩)
    exact ⟨hdropped, hnext⟩

theorem Inv.record (h : Inv cap w) {next : Counters} (hphase : w.phase = .record next) : Inv cap { w with
      row := updateJobSkipped next w.row, rows := (updateJobSkipped next w.row).dropped :: w.rows,
        phase := .idle } := by
  obtain ⟨hdropped, hnext⟩ := h.noting next (.inr hphase)
  have hle : w.row.dropped ≤ next.dropped := hdropped ▸ h.row.within
  have hmax : max w.row.dropped next.dropped = next.dropped := Nat.max_eq_right hle
  refine { h with row := ⟨?_, ?_, ?_⟩, ahead := fun _ => ?_, punching := by simp, noting := by simp, rows := ?_ }
  · simp only [updateJobSkipped, hmax, Nat.max_eq_right (h.row.newlines_le hnext hle)]
    exact hnext.newlines
  · simpa only [updateJobSkipped, hmax] using hnext.aligned
  · simpa only [updateJobSkipped, hmax] using hnext.within
  · cases hline : w.sidecar with
    | missing | torn => exact hmax.trans hdropped
    | line c =>
      have hc := (h.line c hline).within
      simp only [live, updateJobSkipped, hmax]
      rw [if_neg (by omega), hdropped]
  · intro d hd
    simp only [updateJobSkipped, hmax, mem_cons] at hd ⊢
    rcases hd with rfl | hd
    · exact le_rfl
    · exact (h.rows d hd).trans hle

theorem Inv.read (h : Inv cap w) {dropped : Nat} (offset : Option Nat) (limit : Nat) (hle : w.punched ≤ dropped) :
    Inv cap { w with answers := readJobRange w dropped offset limit :: w.answers } := by
  refine { h with reads := ?_ }
  have hstart : w.punched ≤ (readJobRange w dropped offset limit).start := hle.trans (Nat.le_max_left _ _)
  rintro a (_ | ⟨_, ha⟩)
  · refine ⟨hstart, ?_⟩
    rw [← drop_eq_of_le h.tail hstart]
    exact take_prefix _ _
  · exact h.reads a ha

theorem Inv.step {a : Action} (h : Inv cap w) (hok : Careful w a) (hs : step cap w a = some t) : Inv cap t := by
  cases a with
  | append bytes =>
    cases hs
    exact h.append bytes
  | pass read =>
    obtain ⟨⟨hidle, -⟩, ⟨⟩⟩ := Option.ite_none_right_eq_some.1 hs
    have hlive : live w.row (if read then w.sidecar else .missing) = live w.row w.sidecar := by
      cases read with
      | true => rfl
      | false => exact (hok.resolve_left (by simp)).symm
    rw [hlive]
    exact h.plan hidle
  | punch reply =>
    simp only [JobCap.step] at hs
    split at hs
    · rename_i start next hphase
      cases reply with
      | ok =>
        cases hs
        exact h.punchHole hphase
      | late => exact absurd rfl hok
      | failed =>
        cases hs
        exact h.idle (by rw [hphase]; rfl)
    · cases hs
  | note read reply torn =>
    obtain ⟨rfl, rfl⟩ := hok
    simp only [JobCap.step] at hs
    split at hs
    · rename_i next hphase
      rw [if_neg (by simp [h.whole])] at hs
      cases hs
      exact h.note hphase
    · cases hs
  | record reply =>
    simp only [JobCap.step] at hs
    split at hs
    · rename_i next hphase
      split at hs
      · cases hs
        exact h.idle (by rw [hphase]; rfl)
      · cases hs
        exact h.record hphase
    · cases hs
  | read dropped offset limit =>
    obtain ⟨-, ⟨⟩⟩ := Option.ite_none_right_eq_some.1 hs
    exact h.read offset limit (h.ahead hok.1 ▸ hok.2)

end

-- In every run that is careful in this sense a capped log loses only whole blocks before its last `cap` bytes, its
-- counters say what was lost, and what a read answers stands in the stream where it says.
theorem capped_stream_sound (cap : Nat) {acts : List Action} {w : World} (hrun : Run (step cap) Careful {} acts w) :
    Sound cap w := by
  have hstart : Inv cap {} :=
    ⟨rfl, rfl, Nat.zero_le _, ⟨rfl, Nat.dvd_zero _, le_rfl⟩, nofun, nofun, fun _ => rfl, nofun, by simp, by simp, nofun⟩
  exact (hrun.invariant (Inv cap) (fun _ _ _ h hok hs => h.step hok hs) hstart).sound

-- 8194 lines against a cap of one byte: the second punch succeeds and its record fails, which the third pass makes up
-- for.
def recordedLate : List Action :=
  [.append (replicate 8194 newline), .pass true, .punch .failed, .pass true, .punch .ok, .note true .ok false,
    .record .failed, .pass true, .record .ok, .read 4096 (some 0) 2]

theorem capped_stream_recorded : ∃ w, Run (step 1) Careful {} recordedLate w ∧ w.row.dropped = 4096 ∧
    w.answers = [⟨4096, [newline, newline], 4096⟩] ∧ Sound 1 w := by
  obtain ⟨w, hrun, hrow, hanswers⟩ : ∃ w, Run (step 1) Careful {} recordedLate w ∧ w.row.dropped = 4096 ∧
      w.answers = [⟨4096, [newline, newline], 4096⟩] := by
    exact Run.reaches (by decide +kernel)
  exact ⟨w, hrun, hrow, hanswers, capped_stream_sound 1 hrun⟩

-- After the punch the sidecar cannot be read. A read gets the hole, and the next pass counts the lines of the hole.
def holeCounted : List Action :=
  [.append (replicate 8194 newline), .pass true, .punch .ok, .note false .ok false, .read 0 (some 0) 1, .pass true,
    .punch .ok, .note true .ok false, .record .ok]

theorem hole_read_and_counted : ¬ ∀ cap acts w, Run (step cap) Any {} acts w → Sound cap w := by
  intro hall
  obtain ⟨w, hrun, hlines, hcount⟩ : ∃ w, Run (step 1) Any {} holeCounted w ∧ w.row.newlines = 0 ∧
      (w.stream.take w.row.dropped).count newline = 4096 := by
    exact Run.reaches (by decide +kernel)
  have hnewlines := (hall 1 holeCounted w hrun).newlines
  omega

end Spoond.JobCap
