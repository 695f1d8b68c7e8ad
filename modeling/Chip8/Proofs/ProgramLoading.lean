import Chip8.Proofs.ListingAddress
import Chip8.Proofs.RewindUndo

/-!
# A program is loaded once

Until a program is loaded a machine has nothing to do: the word at the program base is zero, which
is no instruction, so every step is a fault and there is nothing to go back to.  A program that
is too large changes nothing about that.  The first program that fits is the last one to be
loaded, and every state that can be gone back to from then on was reached with it.

## Key results

- `Memory.toList_of_load_initial`: memory with a program, as a list
- `Machine.Unloaded.step`, `Machine.Unloaded.perform`: a machine without a program
- `Machine.Unloaded.after`, `Machine.Unloaded.split_of_loads`: a run without a load that succeeds,
  and one with such a load
- `Machine.Unloaded.exists_of_mem_saved`: the saved states are states since the load
- `Machine.fresh_oldest_perform`: the state furthest back stays the one right after the load
- `Machine.loads_at_most_once`: what this says of any run of a new machine
-/

namespace Chip8

namespace Memory

/-- Memory with the font, a program at the program base, and zeros everywhere else. -/
def layout (image : List UInt8) : List UInt8 :=
  font ++ List.replicate (0x200 - 0x50) 0 ++ image ++
    List.replicate (0x1000 - 0x200 - image.length) 0

theorem toList_initial : initial.bytes.toList = font ++ List.replicate (0x1000 - 0x50) 0 := by
  rw [initial, Vector.toList_overwrite _ (by decide), Vector.toList_replicate]
  simp only [List.drop_replicate]
  rfl

theorem toList_of_load_initial {m : Memory} {image : List UInt8} (h : initial.load image = .ok m) :
    m.bytes.toList = layout image := by
  have hbase : programBase.toNat = 0x200 := rfl
  have hfont : font.length = 0x50 := rfl
  have hcapacity : programCapacity = 0x1000 - 0x200 := rfl
  obtain ⟨hfit, rfl⟩ := load_eq_ok_iff.1 h
  rw [Vector.toList_overwrite _ (by omega), toList_initial, hbase]
  -- The base lies in the zeros behind the font, so the image only cuts into zeros.
  have hfront : (font ++ List.replicate (0x1000 - 0x50) (0 : UInt8)).take 0x200 =
      font ++ List.replicate (0x200 - 0x50) 0 := by
    rw [List.take_append, List.take_of_length_le (by omega), hfont, List.take_replicate]
    rfl
  have hback : (font ++ List.replicate (0x1000 - 0x50) (0 : UInt8)).drop (0x200 + image.length) =
      List.replicate (0x1000 - 0x200 - image.length) 0 := by
    rw [List.drop_append, List.drop_of_length_le (by omega), hfont, List.drop_replicate,
      List.nil_append]
    congr 1
    omega
  rw [hfront, hback, layout]

end Memory

/-- A state is the initial one with another memory, up to the timers and the keypad. -/
def State.Fresh (s : State) (memory : Memory) : Prop :=
  s = { State.initial with memory, timers := s.timers, keys := s.keys }

namespace State.Fresh

variable {s : State} {memory : Memory}

theorem withTimers (h : s.Fresh memory) (timers : Timers) : Fresh { s with timers } memory := by
  unfold Fresh
  exact congrArg (fun t : State => { t with timers }) h

theorem withKeys (h : s.Fresh memory) (keys : KeyLatch) : Fresh { s with keys } memory := by
  unfold Fresh
  exact congrArg (fun t : State => { t with keys }) h

theorem withMemory (h : s.Fresh memory) (memory' : Memory) :
    Fresh { s with memory := memory' } memory' := by
  unfold Fresh
  exact congrArg (fun t : State => { t with memory := memory' }) h

theorem memory_eq (h : s.Fresh memory) : s.memory = memory := congrArg State.memory h

theorem pc_eq (h : s.Fresh memory) : s.pc = 0x200 := congrArg State.pc h

theorem returns_eq (h : s.Fresh memory) : s.stack.returns = [] :=
  congrArg (fun t : State => t.stack.returns) h

end State.Fresh

namespace Machine

/-! ## Loads that succeed -/

/-- The image that an operation loads, if it is a load and succeeds. -/
def loadedImage? (m : Machine) : Operation → Option (List UInt8)
  | .load image =>
    match (m.load image).1 with
    | .ok () => some image
    | .error _ => none
  | _ => none

/-- The images that are loaded in a run, in order. -/
def loads (m : Machine) : List Operation → List (List UInt8)
  | [] => []
  | op :: ops => (m.loadedImage? op).toList ++ (m.perform op).loads ops

theorem after_append (m : Machine) (earlier later : List Operation) :
    m.after (earlier ++ later) = (m.after earlier).after later :=
  List.foldl_append

theorem loads_append (m : Machine) (earlier later : List Operation) :
    m.loads (earlier ++ later) = m.loads earlier ++ (m.after earlier).loads later := by
  induction earlier generalizing m with
  | nil => rfl
  | cons op earlier ih => rw [List.cons_append, loads, ih, loads, after_cons, List.append_assoc]

/-! ## Machines with a program -/

theorem load_of_loaded {m : Machine} (h : m.loaded = true) (image : List UInt8) :
    m.load image = (.error (.load .alreadyLoaded), m) := by
  rw [load, if_pos h]

/-- No operation takes the program out of a machine again. -/
theorem loaded_perform {m : Machine} (h : m.loaded = true) (op : Operation) :
    (m.perform op).loaded = true := by
  cases op with
  | load image => rw [perform, load_of_loaded h, h]
  | step =>
    -- A step saves a state or draws a number, but it loads nothing.
    rcases m.step_snd_cases with hsame | ⟨_, _, _, -, -, -, hstep⟩
    · rw [perform, hsame, h]
    · rw [perform, hstep, h]
  | rewind =>
    cases hsaved : m.history.saved with
    | nil => rw [perform, rewind_of_saved_nil hsaved, h]
    | cons s rest =>
      obtain ⟨_, -, -, hrewind⟩ := rewind_of_saved_cons hsaved
      rw [perform, hrewind, h]
  | limitHistory limit => exact h
  | decay => exact h
  | key event => rw [perform, handle_eq, h]

theorem loadedImage?_of_loaded {m : Machine} (h : m.loaded = true) (op : Operation) :
    m.loadedImage? op = none := by
  cases op with
  | load image => simp only [loadedImage?, load_of_loaded h]
  | _ => rfl

theorem loads_of_loaded {m : Machine} (h : m.loaded = true) (ops : List Operation) :
    m.loads ops = [] := by
  induction ops generalizing m with
  | nil => rfl
  | cons op ops ih => rw [loads, loadedImage?_of_loaded h, ih (loaded_perform h op)]; rfl

theorem loaded_after {m : Machine} (h : m.loaded = true) (ops : List Operation) :
    (m.after ops).loaded = true :=
  @after_induction (fun m => m.loaded = true) (fun _ op h => loaded_perform h op) m h ops

/-! ## Machines without a program -/

/-- No program was loaded, nothing is saved, and only the timers and the keypad can differ from
    those of a new machine. -/
structure Unloaded (m : Machine) : Prop where
  loaded : m.loaded = false
  saved : m.history.saved = []
  state : m.state.Fresh .initial

namespace Unloaded

theorem new (random : RandomSource) : (Machine.new random).Unloaded := ⟨rfl, rfl, rfl⟩

variable {m : Machine}

/-- The word at the program base is zero, which is no instruction. -/
theorem step (h : m.Unloaded) : m.step = (.error (.undecodable 0), m) := by
  have hpair : Memory.initial.pair (0x200 : UInt16).toNat = .ok (0, 0) := by decide +kernel
  have hdecode : Instruction.decode? (Word.ofBytes 0 0) = none := by decide
  have hfetch : m.state.fetch = .error (.undecodable 0) := by
    simp only [State.fetch, h.state.memory_eq, h.state.pc_eq, hpair, hdecode]
    rfl
  simp only [Machine.step, hfetch]

theorem rewind (h : m.Unloaded) : m.rewind = (false, m) := rewind_of_saved_nil h.saved

theorem load_of_gt (h : m.Unloaded) {image : List UInt8} (hlength : 3584 < image.length) :
    m.load image = (.error (.load (.tooLarge image.length 3584)), m) := by
  have hload : m.state.memory.load image = .error (.tooLarge image.length 3584) :=
    if_neg (Nat.not_le_of_lt hlength)
  rw [Machine.load, h.loaded, hload]
  rfl

theorem load_of_le (h : m.Unloaded) {image : List UInt8} (hlength : image.length ≤ 3584) :
    ∃ memory, Memory.initial.load image = .ok memory ∧
      m.load image = (.ok (), { m with state := { m.state with memory }, loaded := true }) := by
  have hload : Memory.initial.load image =
      .ok ⟨Memory.initial.bytes.overwrite Memory.programBase.toNat image⟩ := if_pos hlength
  refine ⟨_, hload, ?_⟩
  rw [Machine.load, h.loaded, h.state.memory_eq, hload]
  rfl

/-- A load succeeds if the image fits. -/
theorem loadedImage?_load (h : m.Unloaded) (image : List UInt8) :
    m.loadedImage? (.load image) = if image.length ≤ 3584 then some image else none := by
  by_cases hlength : image.length ≤ 3584
  · obtain ⟨_, -, hload⟩ := h.load_of_le hlength
    simp only [loadedImage?, hload, if_pos hlength]
  · simp only [loadedImage?, h.load_of_gt (Nat.lt_of_not_le hlength), if_neg hlength]

/-- Every operation but a load that succeeds leaves a machine without a program. -/
theorem perform (h : m.Unloaded) {op : Operation} (hop : m.loadedImage? op = none) :
    (m.perform op).Unloaded := by
  cases op with
  | load image =>
    rw [h.loadedImage?_load] at hop
    have hgt : ¬image.length ≤ 3584 := fun hle => by simp [hle] at hop
    rw [Machine.perform, h.load_of_gt (Nat.lt_of_not_le hgt)]
    exact h
  | step =>
    rw [Machine.perform, h.step]
    exact h
  | rewind =>
    rw [Machine.perform, h.rewind]
    exact h
  | limitHistory limit =>
    refine ⟨h.loaded, ?_, h.state⟩
    rw [Machine.perform, limitHistory, History.saved_resize, h.saved, List.take_nil]
  | decay => exact ⟨h.loaded, h.saved, h.state.withTimers _⟩
  | key event =>
    rw [Machine.perform, handle_eq]
    exact ⟨h.loaded, h.saved, h.state.withKeys _⟩

/-- A run without a load that succeeds leaves a machine without a program. -/
theorem after (h : m.Unloaded) {ops : List Operation} (hops : m.loads ops = []) :
    (m.after ops).Unloaded := by
  induction ops generalizing m with
  | nil => exact h
  | cons op ops ih =>
    obtain ⟨hfirst, hrest⟩ := List.append_eq_nil_iff.1 hops
    exact ih (h.perform (Option.toList_eq_nil_iff.1 hfirst)) hrest

/-- In a run with a load that succeeds there is only one, and before it there is no program. -/
theorem split_of_loads (h : m.Unloaded) {ops : List Operation} {image : List UInt8}
    {more : List (List UInt8)} (hops : m.loads ops = image :: more) :
    more = [] ∧ image.length ≤ 3584 ∧
      ∃ earlier later, ops = earlier ++ .load image :: later ∧ m.loads earlier = [] := by
  induction ops generalizing m with
  | nil => cases hops
  | cons op ops ih =>
    cases himage : m.loadedImage? op with
    -- Whatever this was, it has loaded nothing, so the load is still to come.
    | none =>
      rw [loads, himage, Option.toList_none, List.nil_append] at hops
      obtain ⟨hmore, hlength, earlier, later, rfl, hnone⟩ := ih (h.perform himage) hops
      refine ⟨hmore, hlength, op :: earlier, later, rfl, ?_⟩
      rw [loads, himage, hnone]
      rfl
    | some image' =>
      -- Only a load has an image, and after it no other one succeeds.
      cases op with
      | load image'' =>
        have hif := h.loadedImage?_load image''
        rw [himage] at hif
        split at hif
        · rename_i hlength
          cases hif
          obtain ⟨_, -, hload⟩ := h.load_of_le hlength
          have hloaded : (m.perform (.load image')).loaded = true := by rw [Machine.perform, hload]
          rw [loads, himage, loads_of_loaded hloaded] at hops
          cases hops
          exact ⟨rfl, hlength, [], ops, rfl, rfl⟩
        · cases hif
      | _ => cases himage

end Unloaded

/-! ## States that can be gone back to -/

theorem mem_of_mem_remember {m : Machine} {past : List State} {op : Operation} {s : State}
    (h : s ∈ m.remember past op) : s ∈ past ∨ m.executedState? op = some s := by
  cases op with
  | step =>
    simp only [remember] at h
    simp only [executedState?]
    split at h
    · rcases List.mem_cons.1 (List.mem_of_mem_take h) with rfl | hpast
      · exact .inr rfl
      · exact .inl hpast
    · exact .inl h
  | rewind => exact .inl (List.mem_of_mem_tail h)
  | limitHistory limit => exact .inl (List.mem_of_mem_take h)
  | load image => exact .inl h
  | decay => exact .inl h
  | key event => exact .inl h

theorem executedState?_eq_some {m : Machine} {op : Operation} {s : State}
    (h : m.executedState? op = some s) :
    op = .step ∧ s = m.state ∧ ∃ i, m.step.1 = .ok (.executed i) := by
  cases op with
  | step =>
    simp only [executedState?] at h
    split at h
    · rename_i i hstep
      exact ⟨rfl, (Option.some.inj h).symm, i, hstep⟩
    · cases h
  | _ => cases h

/-- A state that is saved after a run was saved before, or the machine was in it when an
    instruction was executed. -/
theorem exists_of_mem_saved_after {m : Machine} {ops : List Operation} {s : State}
    (h : s ∈ (m.after ops).history.saved) :
    s ∈ m.history.saved ∨
    ∃ earlier later, ops = earlier ++ later ∧ s = (m.after earlier).state ∧
      ∃ i, (m.after earlier).step.1 = .ok (.executed i) := by
  induction ops generalizing m with
  | nil => exact .inl h
  | cons op ops ih =>
    rcases ih h with hsaved | ⟨earlier, later, rfl, hstate, hstep⟩
    · rw [saved_perform] at hsaved
      rcases mem_of_mem_remember hsaved with hpast | hexecuted
      · exact .inl hpast
      · -- The state was not saved before this operation, so this is the step that saved it.
        obtain ⟨-, hstate, hstep⟩ := executedState?_eq_some hexecuted
        exact .inr ⟨[], op :: ops, rfl, hstate, hstep⟩
    · exact .inr ⟨op :: earlier, later, rfl, hstate, hstep⟩

/-- A saved state is one that the machine was in after the load. -/
theorem Unloaded.exists_of_mem_saved {m : Machine} (h : m.Unloaded) {ops : List Operation}
    {image : List UInt8} (hops : m.loads ops = [image]) {s : State}
    (hs : s ∈ (m.after ops).history.saved) :
    ∃ earlier later, ops = earlier ++ later ∧ m.loads earlier = [image] ∧
      s = (m.after earlier).state := by
  rcases exists_of_mem_saved_after hs with hsaved | ⟨earlier, later, rfl, hstate, i, hstep⟩
  · rw [h.saved] at hsaved
    exact nomatch hsaved
  · refine ⟨earlier, later, rfl, ?_, hstate⟩
    rw [loads_append] at hops
    cases hearlier : m.loads earlier with
    | nil =>
      -- Without a program nothing is executed.
      rw [(h.after hearlier).step] at hstep
      exact nomatch hstep
    | cons first more =>
      obtain ⟨rfl, -⟩ := h.split_of_loads hearlier
      rw [hearlier] at hops
      rw [(List.cons.inj hops).1]

/-! ## Going back as far as possible -/

/-- The state that is furthest back: the oldest saved one, or the present one if none is
    saved. -/
def oldest (m : Machine) : State := m.history.saved.getLast?.getD m.state

theorem oldest_of_saved_nil {m : Machine} (h : m.history.saved = []) : m.oldest = m.state := by
  rw [oldest, h]
  rfl

/-- When nothing is left to be rewound, the machine is in the state that was furthest back. -/
theorem rewindUpTo_all {n : Nat} {m : Machine} (h : m.history.saved.length ≤ n) :
    (rewindUpTo n m).2.history.saved = [] ∧
      (rewindUpTo n m).2.state = { m.oldest with keys := m.state.keys } := by
  induction n generalizing m with
  | zero =>
    have hsaved : m.history.saved = [] := List.length_eq_zero_iff.1 (Nat.le_zero.1 h)
    rw [oldest_of_saved_nil hsaved]
    exact ⟨hsaved, rfl⟩
  | succ n ih =>
    cases hsaved : m.history.saved with
    | nil =>
      rw [rewindUpTo, rewind_of_saved_nil hsaved, oldest_of_saved_nil hsaved]
      exact ⟨hsaved, rfl⟩
    | cons s rest =>
      obtain ⟨history, rfl, -, hrewind⟩ := rewind_of_saved_cons hsaved
      rw [hsaved, List.length_cons] at h
      have hlater := ih (m := { m with state := { s with keys := m.state.keys }, history })
        (Nat.le_of_succ_le_succ h)
      rw [rewindUpTo, hrewind]
      refine ⟨hlater.1, hlater.2.trans ?_⟩
      -- The state furthest back is the restored one only if no other is saved.
      simp only [oldest, hsaved, List.getLast?_cons]
      cases history.saved.getLast? <;> rfl

/-- An operation does not drop a state that is saved, nor the state before a step that is
    executed. -/
def Keeps (m : Machine) : Operation → Prop
  | .step => m.executedState? .step ≠ none → m.history.saved.length < m.history.limit
  | .limitHistory limit => m.history.saved.length ≤ limit
  | _ => True

/-- In a run no state is dropped. -/
def KeepsAll (m : Machine) : List Operation → Prop
  | [] => True
  | op :: ops => m.Keeps op ∧ (m.perform op).KeepsAll ops

instance decidableKeeps (m : Machine) : ∀ op, Decidable (m.Keeps op)
  | .step => inferInstanceAs (Decidable (_ → _))
  | .limitHistory _ => inferInstanceAs (Decidable (_ ≤ _))
  | .load _ | .rewind | .decay | .key _ => inferInstanceAs (Decidable True)

instance decidableKeepsAll : ∀ (m : Machine) (ops : List Operation), Decidable (m.KeepsAll ops)
  | _, [] => inferInstanceAs (Decidable True)
  | m, op :: ops =>
    have := decidableKeepsAll (m.perform op) ops
    inferInstanceAs (Decidable (_ ∧ _))

theorem KeepsAll.of_append {m : Machine} {earlier later : List Operation}
    (h : m.KeepsAll (earlier ++ later)) : (m.after earlier).KeepsAll later := by
  induction earlier generalizing m with
  | nil => exact h
  | cons op earlier ih => exact ih h.2

/-- With the same states saved, the state furthest back is the same as well, unless it is the
    present one. -/
theorem fresh_oldest_of_saved_eq {m m' : Machine} {memory : Memory} (h : m.oldest.Fresh memory)
    (hsaved : m'.history.saved = m.history.saved)
    (hstate : m.state.Fresh memory → m'.state.Fresh memory) : m'.oldest.Fresh memory := by
  rw [oldest] at h ⊢
  rw [hsaved]
  cases hlast : m.history.saved.getLast? with
  | none =>
    rw [hlast] at h
    exact hstate h
  | some s =>
    rw [hlast] at h
    exact h

/-- As long as no state is dropped, the state furthest back stays the one right after the load. -/
theorem fresh_oldest_perform {m : Machine} {memory : Memory} (h : m.oldest.Fresh memory)
    (hloaded : m.loaded = true) {op : Operation} (hkeeps : m.Keeps op) :
    (m.perform op).oldest.Fresh memory := by
  cases op with
  | load image =>
    rw [perform, load_of_loaded hloaded]
    exact h
  | step =>
    rcases m.step_cases with ⟨_, -, hstep⟩ | ⟨_, _, -, -, hstep⟩ | ⟨_, -, -, hstep⟩ |
      ⟨i, _, _, -, -, -, hstep⟩
    · rwa [perform, hstep]
    · rwa [perform, hstep]
    · rwa [perform, hstep]
    · have hroom : m.history.saved.length < m.history.limit :=
        hkeeps (by simp [executedState?, hstep])
      have hsaved : (m.perform .step).history.saved = m.state :: m.history.saved := by
        rw [saved_perform]
        simp only [remember, hstep]
        exact List.take_of_length_le hroom
      -- The state before the step is furthest back if it is the only one.
      have hsame : (m.perform .step).oldest = m.oldest := by
        rw [oldest, oldest, hsaved, List.getLast?_cons]
        rfl
      rw [hsame]
      exact h
  | rewind =>
    cases hsaved : m.history.saved with
    | nil => rwa [perform, rewind_of_saved_nil hsaved]
    | cons s rest =>
      obtain ⟨history, rfl, -, hrewind⟩ := rewind_of_saved_cons hsaved
      -- Before the restored state is given the present keypad, it is one of the saved states.
      have hrestored : (oldest { m with state := s, history }).Fresh memory := by
        rw [oldest, hsaved, List.getLast?_cons] at h
        exact h
      rw [perform, hrewind]
      exact fresh_oldest_of_saved_eq hrestored rfl fun hs => hs.withKeys _
  | limitHistory limit =>
    have hsaved : (m.limitHistory limit).history.saved = m.history.saved :=
      (History.saved_resize _ _).trans (List.take_of_length_le hkeeps)
    exact fresh_oldest_of_saved_eq h hsaved id
  | decay => exact fresh_oldest_of_saved_eq h rfl fun hs => hs.withTimers _
  | key event =>
    refine fresh_oldest_of_saved_eq h (history_handle m event ▸ rfl) fun hs => ?_
    rw [perform, handle_eq]
    exact hs.withKeys _

theorem fresh_oldest_after {m : Machine} {memory : Memory} (h : m.oldest.Fresh memory)
    (hloaded : m.loaded = true) {ops : List Operation} (hkeeps : m.KeepsAll ops) :
    (m.after ops).oldest.Fresh memory := by
  induction ops generalizing m with
  | nil => exact h
  | cons op ops ih =>
    exact ih (fresh_oldest_perform h hloaded hkeeps.1) (loaded_perform hloaded op) hkeeps.2

/-! ## A load and what follows it -/

/-- After the load that succeeds the machine has a program.  If no state is dropped, the state
    furthest back is the one right after that load. -/
theorem Unloaded.of_loads {m : Machine} (h : m.Unloaded) {ops : List Operation}
    {image : List UInt8} (hops : m.loads ops = [image]) :
    (m.after ops).loaded = true ∧
      (m.KeepsAll ops →
        ∃ memory, Memory.initial.load image = .ok memory ∧ (m.after ops).oldest.Fresh memory) := by
  obtain ⟨-, hlength, earlier, later, rfl, hnone⟩ := h.split_of_loads hops
  have hbefore := h.after hnone
  obtain ⟨memory, hmemory, hload⟩ := hbefore.load_of_le hlength
  have hloaded : ((m.after earlier).perform (.load image)).loaded = true := by
    rw [Machine.perform, hload]
  have hfresh : ((m.after earlier).perform (.load image)).oldest.Fresh memory := by
    rw [Machine.perform, hload, oldest_of_saved_nil (by exact hbefore.saved)]
    exact hbefore.state.withMemory memory
  rw [after_append, after_cons]
  exact ⟨loaded_after hloaded later,
    fun hkeeps => ⟨memory, hmemory, fresh_oldest_after hfresh hloaded hkeeps.of_append.2⟩⟩

/-- Whatever is done to a new machine, a program is loaded into it at most once.

    Until then it has no saved states, cannot be rewound and cannot make a step, as the word at
    the program base is zero.  An image that is too large changes nothing, and one that fits can
    be loaded.  After that every load fails and changes nothing, and every state that can be gone
    back to is one that the machine was in since.  If no state was dropped, rewinding to the end
    leads to the program as it was loaded. -/
theorem loads_at_most_once (random : RandomSource) (ops : List Operation) :
    let start := Machine.new random
    let m := start.after ops
    (start.loads ops = [] →
      m.history.saved = [] ∧ m.rewind = (false, m) ∧ m.state.pc = 0x200 ∧
        m.step = (.error (.undecodable 0), m) ∧
        ∀ image,
          if image.length ≤ 3584 then (m.load image).1 = .ok ()
          else m.load image = (.error (.load (.tooLarge image.length 3584)), m)) ∧
      ∀ image more, start.loads ops = image :: more →
        more = [] ∧ (∀ other, m.load other = (.error (.load .alreadyLoaded), m)) ∧
          (∀ s ∈ m.history.saved, ∃ earlier later, ops = earlier ++ later ∧
            start.loads earlier = [image] ∧ s = (start.after earlier).state) ∧
          (start.KeepsAll ops → ∀ n, m.history.saved.length < n →
            let back := (rewindUpTo n m).2
            (rewindUpTo n m).1 < n ∧ back.rewind = (false, back) ∧ back.state.pc = 0x200 ∧
              back.state.stack.returns = [] ∧
              back.state.memory.bytes.toList = Memory.layout image) := by
  intro start m
  have hstart : start.Unloaded := .new random
  refine ⟨fun hnone => ?_, fun image more hloads => ?_⟩
  · have hm : m.Unloaded := hstart.after hnone
    refine ⟨hm.saved, hm.rewind, hm.state.pc_eq, hm.step, fun image => ?_⟩
    split
    · rename_i hlength
      obtain ⟨_, -, hload⟩ := hm.load_of_le hlength
      exact congrArg Prod.fst hload
    · rename_i hlength
      exact hm.load_of_gt (Nat.lt_of_not_le hlength)
  · obtain ⟨rfl, -⟩ := hstart.split_of_loads hloads
    obtain ⟨hloaded, hfresh⟩ := hstart.of_loads hloads
    refine ⟨rfl, load_of_loaded hloaded, fun s hs => hstart.exists_of_mem_saved hloads hs,
      fun hkeeps n hn => ?_⟩
    obtain ⟨memory, hmemory, holdest⟩ := hfresh hkeeps
    have hcount : (rewindUpTo n m).1 < n := by
      rw [rewindUpTo_fst]
      omega
    obtain ⟨hsaved, hstate⟩ := rewindUpTo_all (Nat.le_of_lt hn)
    have hback : (rewindUpTo n m).2.state.Fresh memory := hstate ▸ holdest.withKeys _
    refine ⟨hcount, rewind_of_saved_nil hsaved, hback.pc_eq, hback.returns_eq, ?_⟩
    rw [hback.memory_eq]
    exact Memory.toList_of_load_initial hmemory

/-- A program that calls a subroutine and overwrites itself there, after a vain step and a vain
    rewind.  In the middle of the run one step is taken back. -/
theorem loads_at_most_once_of_call :
    let image : List UInt8 := [0x22, 0x04, 0x00, 0x00, 0xA2, 0x00, 0xF3, 0x55]
    let ops : List Operation :=
      [.step, .rewind, .load image, .step, .key (.press 3), .step, .rewind, .decay, .step, .step,
        .load [0x00, 0xE0]]
    ∃ m, (Machine.new (.counter 0 1)).after ops = m ∧ m.state.memory.read 0x200 = .ok 0 ∧
      m.history.saved.length = 3 ∧ m.load [] = (.error (.load .alreadyLoaded), m) ∧
      (rewindUpTo 9 m).2.state.pc = 0x200 ∧
      (rewindUpTo 9 m).2.state.memory.bytes.toList = Memory.layout image := by
  intro image ops
  obtain ⟨hread, hlength, hloads, hkeeps⟩ :
      ((Machine.new (.counter 0 1)).after ops).state.memory.read 0x200 = .ok 0 ∧
        ((Machine.new (.counter 0 1)).after ops).history.saved.length = 3 ∧
        (Machine.new (.counter 0 1)).loads ops = [image] ∧
        (Machine.new (.counter 0 1)).KeepsAll ops := by decide +kernel
  obtain ⟨-, hloaded⟩ := loads_at_most_once (.counter 0 1) ops
  obtain ⟨-, hfails, -, hback⟩ := hloaded image [] hloads
  obtain ⟨-, -, hpc, -, hmemory⟩ := hback hkeeps 9 (by omega)
  exact ⟨_, rfl, hread, hlength, hfails [], hpc, hmemory⟩

end Machine

end Chip8
