import Zhios.Task.InputRun
import Zhios.Video.Echo

/-! A line on its way from the keyboard to the program. `getchar` polls the kernel until
a key is there, and the interrupts of the keyboard come whenever they like: the line that
`read_line` returns, and what is on the screen behind it, depend on the keys alone. -/
namespace Zhios
open Machine

/-- The characters that some codes type, the first one first. -/
def typedBy (beyond : UInt8) : Bool → List UInt8 → List UInt8
  | _, [] => []
  | capslockOn, code :: codes =>
    (keyTyped beyond capslockOn code).toList ++ typedBy beyond (capslockAfter capslockOn code) codes

theorem typedBy_append (beyond : UInt8) (capslockOn : Bool) (codes codes' : List UInt8) :
    typedBy beyond capslockOn (codes ++ codes') =
      typedBy beyond capslockOn codes ++ typedBy beyond (codes.foldl capslockAfter capslockOn) codes' := by
  induction codes generalizing capslockOn with
  | nil => rfl
  | cons code codes ih => simp only [List.cons_append, typedBy, ih, List.append_assoc, List.foldl_cons]

/-- `system_getchar`: the result of the system call as a `char`. -/
def systemGetchar (s : Processes) : UInt8 × Processes :=
  let r := getKeyFromKeyboard s
  ((Int8.ofInt r.1).toUInt8, r.2)

theorem systemGetchar_eq (s : Processes) : systemGetchar s = keyboardPop s := by
  simp only [systemGetchar, getKeyFromKeyboard, Int8.ofInt_toInt]
  rfl

namespace InputRun
variable (beyond : UInt8)

/-- The keyboard interrupts that come before the next poll. -/
def interrupts (t : InputRun) (codes : List UInt8) : InputRun :=
  codes.foldl (fun t code => t.exec beyond (.interrupt code)) t

/-- The results of the polls, each after the interrupts that come before it. -/
def polls : InputRun → List (List UInt8) → List UInt8
  | _, [] => []
  | t, codes :: schedule =>
    (systemGetchar (t.interrupts beyond codes).run.s).1 ::
      polls ((t.interrupts beyond codes).exec beyond .getKey) schedule

variable {beyond} {t : InputRun}

/-- The kernel runs, with some characters waiting for the process in front. -/
structure Listening (t : InputRun) (unread : List UInt8) (pushed : ℕ) : Prop where
  tracks : t.Tracks
  running : t.run.s.halted = false
  unread_eq : t.unread t.front = unread
  pushed_eq : t.pushed t.front = pushed

namespace Listening
variable {unread : List UInt8} {pushed : ℕ}

theorem interrupt (h : t.Listening unread pushed) (beyond code : UInt8) (hroom : pushed < zhiosMaxKeyboardBufferSize) :
    (t.exec beyond (.interrupt code)).Listening (unread ++ t.typed beyond code)
      (pushed + (t.typed beyond code).length) := by
  have hwaiting := (h.tracks.holds _ h.tracks.front_mem).ring.length_le_written
  rw [h.unread_eq, h.pushed_eq] at hwaiting
  have hallowed : t.Allowed beyond (.interrupt code) := by
    refine ⟨h.running, fun _ => ?_⟩
    rw [h.unread_eq]
    exact hwaiting.trans_lt hroom
  constructor
  · exact tracks_interrupt h.tracks hallowed
  · rw [exec_interrupt]
    cases htyped : keyTyped beyond t.capslockOn code with
    | none => exact h.running
    | some c =>
      rw [Option.elim_some, keyboardPush_eq h.tracks.serves (keyTyped_ne_zero htyped)]
      exact h.running
  · change Function.update t.unread t.front (t.unread t.front ++ t.typed beyond code) t.front = _
    rw [Function.update_self, h.unread_eq]
  · change Function.update t.pushed t.front (t.pushed t.front + (t.typed beyond code).length) t.front = _
    rw [Function.update_self, h.pushed_eq]

theorem interrupts (h : t.Listening unread pushed) (codes : List UInt8)
    (hroom : pushed + (typedBy beyond t.capslockOn codes).length < zhiosMaxKeyboardBufferSize) :
    (t.interrupts beyond codes).Listening (unread ++ typedBy beyond t.capslockOn codes)
        (pushed + (typedBy beyond t.capslockOn codes).length) ∧
      (t.interrupts beyond codes).capslockOn = codes.foldl capslockAfter t.capslockOn := by
  induction codes generalizing t unread pushed with
  | nil =>
    rw [typedBy, List.append_nil, List.length_nil, Nat.add_zero]
    exact ⟨h, rfl⟩
  | cons code codes ih =>
    have hcapslock : (t.exec beyond (.interrupt code)).capslockOn = capslockAfter t.capslockOn code := by
      simp only [exec, classicKeyboardInterruptHandler_eq]
    rw [typedBy, List.length_append] at hroom
    have hfirst := h.interrupt beyond code (by omega)
    obtain ⟨hrest, hlast⟩ := ih hfirst (by rw [hcapslock]; exact (Nat.add_assoc ..).trans_lt hroom)
    rw [hcapslock] at hrest hlast
    refine ⟨?_, hlast⟩
    rw [typedBy, List.length_append, ← List.append_assoc, ← Nat.add_assoc]
    exact hrest

/-- A poll takes the oldest character, or finds nothing. -/
theorem getKey (h : t.Listening unread pushed) (beyond : UInt8) (hroom : pushed < zhiosMaxKeyboardBufferSize) :
    (systemGetchar t.run.s).1 = unread.headD 0 ∧ (t.exec beyond .getKey).Listening unread.tail pushed := by
  have hlap : t.FirstLap .getKey := fun _ => h.pushed_eq ▸ hroom
  obtain ⟨hchar, -⟩ := (Typing.fifo_iff_firstLap h.tracks.typing .pop).mpr hlap
  rw [systemGetchar_eq]
  refine ⟨hchar.trans (congrArg (fun l => List.headD l 0) h.unread_eq), tracks_getKey h.tracks hlap, ?_, ?_,
    h.pushed_eq⟩
  · change (keyboardPop t.run.s).2.halted = false
    rw [keyboardPop_eq h.tracks.serves]
    dsimp only
    split_ifs
    · exact h.running
    · exact h.running
  · change Function.update t.unread t.front (t.unread t.front).tail t.front = _
    rw [Function.update_self, h.unread_eq]

theorem polls_cons (h : t.Listening unread pushed) (beyond : UInt8) (codes : List UInt8) (schedule : List (List UInt8))
    (hroom : pushed + (typedBy beyond t.capslockOn codes).length < zhiosMaxKeyboardBufferSize) :
    ∃ t' : InputRun, t'.Listening (unread ++ typedBy beyond t.capslockOn codes).tail
        (pushed + (typedBy beyond t.capslockOn codes).length) ∧
      t'.capslockOn = codes.foldl capslockAfter t.capslockOn ∧
      (t.polls beyond (codes :: schedule)).filter (· ≠ 0) =
        (unread ++ typedBy beyond t.capslockOn codes).take 1 ++ (t'.polls beyond schedule).filter (· ≠ 0) := by
  obtain ⟨hlistening, hcapslock⟩ := h.interrupts codes hroom
  obtain ⟨hchar, hnext⟩ := hlistening.getKey beyond hroom
  refine ⟨_, hnext, hcapslock, ?_⟩
  have hnonzero := (hlistening.tracks.holds _ hlistening.tracks.front_mem).nonzero
  rw [hlistening.unread_eq] at hnonzero
  rw [polls, hchar]
  generalize unread ++ typedBy beyond t.capslockOn codes = waiting at hnonzero ⊢
  cases waiting with
  | nil => rfl
  | cons c waiting =>
    rw [List.headD_cons, List.filter_cons_of_pos (by simpa using hnonzero c List.mem_cons_self)]
    rfl

theorem polls_drain (h : t.Listening unread pushed) (hroom : pushed < zhiosMaxKeyboardBufferSize) {k : ℕ}
    (hk : unread.length ≤ k) : (t.polls beyond (List.replicate k [])).filter (· ≠ 0) = unread := by
  induction k generalizing t unread with
  | zero =>
    rw [List.length_eq_zero_iff.mp (Nat.le_zero.mp hk)]
    rfl
  | succ k ih =>
    obtain ⟨t', hnext, -, hpolls⟩ := h.polls_cons beyond [] (List.replicate k []) hroom
    rw [typedBy, List.append_nil] at hnext hpolls
    have hless : unread.tail.length ≤ k := by
      rw [List.length_tail]
      omega
    rw [List.replicate_succ, hpolls, ih hnext hless]
    cases unread <;> rfl

/-- The characters that the polls find are those that were typed, however the interrupts fall
between them, when enough polls are made afterwards. -/
theorem polls_filter (h : t.Listening unread pushed) (beyond : UInt8) (schedule : List (List UInt8)) {k : ℕ}
    (hroom : pushed + (typedBy beyond t.capslockOn schedule.flatten).length < zhiosMaxKeyboardBufferSize)
    (hk : (unread ++ typedBy beyond t.capslockOn schedule.flatten).length ≤ k) :
    (t.polls beyond (schedule ++ List.replicate k [])).filter (· ≠ 0) =
      unread ++ typedBy beyond t.capslockOn schedule.flatten := by
  induction schedule generalizing t unread pushed with
  | nil =>
    rw [List.flatten_nil, typedBy, List.append_nil] at hk ⊢
    exact h.polls_drain hroom hk
  | cons codes schedule ih =>
    rw [List.flatten_cons, typedBy_append, ← List.append_assoc] at hk ⊢
    rw [List.flatten_cons, typedBy_append, List.length_append, ← Nat.add_assoc] at hroom
    have hcodes : pushed + (typedBy beyond t.capslockOn codes).length < zhiosMaxKeyboardBufferSize := by omega
    obtain ⟨t', hnext, hcapslock, hpolls⟩ := h.polls_cons beyond codes (schedule ++ List.replicate k []) hcodes
    rw [← hcapslock] at hk hroom ⊢
    have hless : ((unread ++ typedBy beyond t.capslockOn codes).tail ++
        typedBy beyond t'.capslockOn schedule.flatten).length ≤ k := by
      rw [List.length_append] at hk ⊢
      rw [List.length_tail]
      omega
    rw [List.cons_append, hpolls, ih hnext hroom hless, ← List.append_assoc]
    generalize unread ++ typedBy beyond t.capslockOn codes = waiting
    cases waiting <;> rfl

end Listening

end InputRun

section Polls
variable {ι : Type*} {size : ι → ℕ} [DecidableEq ι] (buffer : Place ι) (max : ℕ) (echoKey : Bool)

/-- The polls that found a key. -/
def LineInput.nonzero (s : LineInput size) : LineInput size := { s with keys := s.keys.filter (· ≠ 0) }

theorem getchar_filter (keys : List UInt8) :
    getchar (keys.filter (· ≠ 0)) = (getchar keys).map fun r => (r.1, r.2.filter (· ≠ 0)) := by
  induction keys with
  | nil => rfl
  | cons val keys ih =>
    by_cases hval : val = 0
    · rw [List.filter_cons_of_neg (by simp [hval]), getchar, if_pos hval]
      exact ih
    · rw [List.filter_cons_of_pos (by simp [hval]), getchar, getchar, if_neg hval, if_neg hval, Option.map_some]

theorem readLineLoop_nonzero (fuel i : ℕ) (s : LineInput size) :
    readLineLoop buffer max echoKey fuel i s.nonzero =
      (readLineLoop buffer max echoKey fuel i s).map fun r => (r.1, r.2.nonzero) := by
  induction fuel generalizing i s with
  | zero => rfl
  | succ fuel ih =>
    rw [readLineLoop, readLineLoop]
    by_cases hi : i < max
    swap
    · rw [if_neg hi, if_neg hi]
      rfl
    rw [if_pos hi, if_pos hi, LineInput.nonzero, getchar_filter, Option.bind_map, Option.map_bind]
    congr 1
    funext r
    obtain ⟨key, keys⟩ := r
    simp only [Function.comp_apply]
    -- what is stored and echoed does not depend on the polls to come
    have hnext : ∀ (j : ℕ) (m : Objects size UInt8) (echoed : List UInt8),
        readLineLoop buffer max echoKey fuel j ⟨m, keys.filter (· ≠ 0), echoed⟩ =
          (readLineLoop buffer max echoKey fuel j ⟨m, keys, echoed⟩).map fun r => (r.1, r.2.nonzero) :=
      fun j m echoed => ih j ⟨m, keys, echoed⟩
    by_cases hcr : key = carriageReturn
    · rw [if_pos hcr, if_pos hcr]
      rfl
    · rw [if_neg hcr, if_neg hcr]
      split_ifs
      all_goals
        rw [Option.map_bind]
        congr 1
        funext m
        exact hnext _ _ _

/-- The null behind the line does not depend on them either. -/
theorem terminateLine_nonzero (r : ℕ × LineInput size) :
    terminateLine buffer (r.1, r.2.nonzero) = (terminateLine buffer r).map LineInput.nonzero := by
  rw [terminateLine, terminateLine, Option.map_map]
  rfl

theorem readLineLoop_bind_nonzero (fuel i : ℕ) (s : LineInput size) :
    (readLineLoop buffer max echoKey fuel i s.nonzero).bind (terminateLine buffer) =
      ((readLineLoop buffer max echoKey fuel i s).bind (terminateLine buffer)).map LineInput.nonzero := by
  rw [readLineLoop_nonzero, Option.bind_map, Option.map_bind]
  congr 1
  funext r
  exact terminateLine_nonzero buffer r

omit [DecidableEq ι] in
theorem leavesLine_nonzero (result : Option (LineInput size)) (line : List UInt8) :
    LeavesLine (result.map LineInput.nonzero) buffer line ↔ LeavesLine result buffer line := by
  cases result with
  | none => exact Iff.rfl
  | some s => simp only [LeavesLine, Option.map_some, Option.some.injEq, exists_eq_left', LineInput.nonzero]

end Polls

/-- In every state the kernel gets to from boot without a read of an empty lapped ring, and
however the interrupts of the keyboard fall between the polls of `getchar`: with less than a
lap of characters typed, `read_line` echoes the keys of the line and leaves what editing it
by these keys leaves, exactly when they are typed well. -/
theorem readLine_every_timing (beyond : UInt8) (input : LoadInput) (hfile : 0 < input.fileType)
    (hboot : input.process ≠ 0 ∧ input.task ≠ 0 ∧ input.pageDirectory ≠ 0 ∧ input.stack ≠ 0) (ops : List InputOp)
    (hallowed : Each (InputRun.exec beyond) (InputRun.Allowed beyond) (InputRun.boot input) ops)
    (hlap : Each (InputRun.exec beyond) InputRun.FirstLap (InputRun.boot input) ops)
    (t : InputRun) (ht : ops.foldl (InputRun.exec beyond) (InputRun.boot input) = t) (hrunning : t.run.s.halted = false)
    {ι : Type*} {size : ι → ℕ} [DecidableEq ι] {buffer : Place ι} {max : ℕ}
    (hroom : size buffer.object = buffer.offset + max) (m : Objects size UInt8) (schedule : List (List UInt8)) (k : ℕ)
    (typed : List UInt8) (htyped : t.unread t.front ++ typedBy beyond t.capslockOn schedule.flatten = typed)
    (hslots : t.pushed t.front + (typedBy beyond t.capslockOn schedule.flatten).length < zhiosMaxKeyboardBufferSize)
    (hreturn : carriageReturn ∈ typed) (hk : typed.length ≤ k) :
    (LeavesLine (readLine buffer max true ⟨m, t.polls beyond (schedule ++ List.replicate k []), []⟩) buffer
        (editLine max typed []) ↔ TypedWell max ⟨[], 0⟩ (typedKeys typed)) ∧
      ∀ s', readLine buffer max true ⟨m, t.polls beyond (schedule ++ List.replicate k []), []⟩ = some s' →
        s'.echoed = typedKeys typed := by
  have hgood : t.Good := by
    rw [← ht]
    refine (hallowed.and hlap).foldl_good (fun t op hg ha => ?_) (InputRun.boot_good hfile hboot)
    exact InputRun.good_exec (hg.tracks ha.1.running) ha.1 ha.2
  have hlistening : t.Listening (t.unread t.front) (t.pushed t.front) := ⟨hgood.tracks hrunning, hrunning, rfl, rfl⟩
  have hpolls := hlistening.polls_filter beyond schedule hslots (htyped.symm ▸ hk)
  rw [htyped] at hpolls
  generalize t.polls beyond (schedule ++ List.replicate k []) = keys at hpolls ⊢
  have hzero : 0 ∉ typed := by
    rw [← hpolls]
    exact fun hmem => absurd (List.mem_filter.mp hmem).2 (by simp)
  have hfuel : typed.length < keys.length + 1 := by
    rw [← hpolls]
    exact Nat.lt_succ_of_le (List.length_filter_le _ _)
  have hnonzero : LineInput.nonzero ⟨m, keys, []⟩ = ⟨m, typed, []⟩ := by rw [LineInput.nonzero, hpolls]
  have hread : (readLine buffer max true ⟨m, keys, []⟩).map LineInput.nonzero =
      (readLineLoop buffer max true (keys.length + 1) 0 ⟨m, typed, []⟩).bind (terminateLine buffer) := by
    rw [← hnonzero, readLineLoop_bind_nonzero]
    rfl
  constructor
  · rw [← leavesLine_nonzero, hread]
    exact readLineLoop_iff (t := ⟨[], 0⟩) hroom hzero hreturn List.not_mem_nil rfl trivial hfuel
  · intro s' hs'
    rw [hs'] at hread
    exact readLineLoop_echoed hroom hzero hread.symm

/-- An "l" after one poll, then Return together with the release of the "l". -/
theorem readLine_every_timing_shell :
    LeavesLine (readLine ⟨(), 0⟩ 1024 true ⟨⟨fun _ => 0⟩,
      (InputRun.boot ⟨0x1000, 0x2000, 1, 0x3000, 1⟩).polls 0
        ([[], [0x26], [], [0xA6, 0x1C]] ++ List.replicate 2 []), []⟩ : Option (LineInput fun _ : Unit => 1024))
      ⟨(), 0⟩ [0x6C] :=
  (readLine_every_timing 0 ⟨0x1000, 0x2000, 1, 0x3000, 1⟩ (by decide) (by decide) [] trivial trivial _ rfl rfl
    (Nat.zero_add _).symm ⟨fun _ => 0⟩ [[], [0x26], [], [0xA6, 0x1C]] 2 [0x6C, 13] (by decide +kernel)
    (by decide +kernel) (by decide) (by decide)).1.mpr (by decide)

end Zhios
