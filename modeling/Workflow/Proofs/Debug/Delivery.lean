import Mathlib.Data.List.Induction
import Workflow.Debug.Backlog
/-!
What a client receives of the messages that are queued for it, however its takes come in between. A
queue with room for two never refuses a message; what arrives are messages in their order, and wherever
some are missing a mark arrives in their place. The numbers in the marks account for all that was lost
as long as no mark is lost itself.
-/

namespace Workflow.Backlog

/-- What happens to a queue: a message is queued, or the client takes the oldest one that waits. -/
inductive Act where
  | enqueue (message : Value)
  | take

/-- An act, with what it gives to the client; nothing, if the queue refuses a message. A client that
finds the queue empty takes nothing. -/
def act (b : Backlog) : Act → Option (Backlog × List Value)
  | .enqueue message => (b.enqueue message).map (·, [])
  | .take => match b.take? with
    | none => some (b, [])
    | some (message, b) => some (b, [message])

/-- Acts one after another, with all that the client received. -/
def perform (b : Backlog) : List Act → Option (Backlog × List Value)
  | [] => some (b, [])
  | a :: acts => do
    let (b, first) ← b.act a
    let (b, rest) ← b.perform acts
    some (b, first ++ rest)

/-- The messages that are queued in the course of some acts. -/
def enqueued : List Act → List Value
  | [] => []
  | .enqueue message :: acts => message :: enqueued acts
  | .take :: acts => enqueued acts

/-- What stands in a queue: the message with a number, counted from the first that was ever queued, or
the mark that was put before a message when so many frames were lost. -/
inductive Frame where
  | message (number : Nat) (content : Value)
  | mark (before : Value) (lost : Nat)

namespace Frame

def value : Frame → Value
  | message _ content => content
  | mark before lost => resync before lost

def content? : Frame → Option Value
  | message _ content => some content
  | mark _ _ => none

end Frame

/-- The number of the message that follows upon some frames if none is lost in between. -/
def due (frames : List Frame) : Nat :=
  frames.foldl (fun n f => match f with | .message number _ => number + 1 | .mark _ _ => n) 0

@[simp] theorem due_nil : due [] = 0 := rfl

@[simp] theorem due_message (frames : List Frame) (n : Nat) (m : Value) :
    due (frames ++ [.message n m]) = n + 1 := by simp [due]

@[simp] theorem due_mark (frames : List Frame) (m : Value) (lost : Nat) :
    due (frames ++ [.mark m lost]) = due frames := by simp [due]

/-- Frames that tell of some messages: each one that is a message has its content from there, none
comes twice or too late, and where it is not the one that is due, a mark comes right before it. -/
def Accounts (messages : List Value) (frames : List Frame) : Prop :=
  ∀ before number content after, frames = before ++ .message number content :: after →
    messages[number]? = some content ∧ due before ≤ number ∧
      (due before < number → ∃ earlier m lost, before = earlier ++ [.mark m lost])

namespace Accounts

variable {messages : List Value} {frames : List Frame}

theorem nil : Accounts messages [] := by
  intro before number content after h
  simp at h

theorem take (h : Accounts messages frames) {first rest : List Frame} (hs : frames = first ++ rest) :
    Accounts messages first := by
  intro before number content after hf
  exact h before number content (after ++ rest) (by simp [hs, hf])

theorem grow (h : Accounts messages frames) (more : List Value) :
    Accounts (messages ++ more) frames := by
  intro before number content after hf
  obtain ⟨hc, ho, hm⟩ := h before number content after hf
  refine ⟨?_, ho, hm⟩
  obtain ⟨hn, -⟩ := List.getElem?_eq_some_iff.1 hc
  rwa [List.getElem?_append_left hn]

/-- One frame more: a mark, or a message that is due or comes after a mark. -/
theorem concat (h : Accounts messages frames) {f : Frame}
    (hf : ∀ number content, f = .message number content →
      messages[number]? = some content ∧ due frames ≤ number ∧
        (due frames < number → ∃ earlier m lost, frames = earlier ++ [.mark m lost])) :
    Accounts messages (frames ++ [f]) := by
  intro before number content after hs
  rcases List.eq_nil_or_concat after with rfl | ⟨after, last, rfl⟩
  · obtain ⟨rfl, hl⟩ := List.append_inj' hs rfl
    exact hf number content (List.singleton_inj.1 hl)
  · rw [List.concat_eq_append, ← List.cons_append, ← List.append_assoc] at hs
    obtain ⟨hs, -⟩ := List.append_inj' hs rfl
    exact h before number content after hs

theorem mark (h : Accounts messages frames) (m : Value) (lost : Nat) :
    Accounts messages (frames ++ [.mark m lost]) :=
  h.concat (by simp)

theorem message (h : Accounts messages frames) {number : Nat} {content : Value}
    (hc : messages[number]? = some content) (ho : due frames ≤ number)
    (hm : due frames < number → ∃ earlier m lost, frames = earlier ++ [.mark m lost]) :
    Accounts messages (frames ++ [.message number content]) := by
  refine h.concat fun n c hn => ?_
  cases hn
  exact ⟨hc, ho, hm⟩

theorem due_le (h : Accounts messages frames) : due frames ≤ messages.length := by
  induction frames using List.reverseRecOn with
  | nil => simp
  | append_singleton frames f ih =>
    cases f with
    | mark m lost => simpa using ih (h.take rfl)
    | message number content =>
      obtain ⟨hc, -, -⟩ := h frames number content [] rfl
      obtain ⟨hn, -⟩ := List.getElem?_eq_some_iff.1 hc
      rw [due_message]
      exact hn

/-- The messages among such frames are some of the messages, in order. -/
theorem contents_sublist (h : Accounts messages frames) :
    List.Sublist (frames.filterMap Frame.content?) (messages.take (due frames)) := by
  induction frames using List.reverseRecOn with
  | nil => exact List.nil_sublist _
  | append_singleton frames f ih =>
    have hp := ih (h.take rfl)
    cases f with
    | mark m lost => simpa [List.filterMap_append, List.filterMap_cons, Frame.content?] using hp
    | message number content =>
      obtain ⟨hc, ho, -⟩ := h frames number content [] rfl
      obtain ⟨hn, rfl⟩ := List.getElem?_eq_some_iff.1 hc
      rw [due_message, List.take_succ_eq_append_getElem hn, List.filterMap_append]
      exact (hp.trans (List.take_sublist_take_left ho)).append (by simp [Frame.content?])

end Accounts

/-- A queue in the course of acts: together with what the client has received, it accounts for the
messages that were queued so far, the last of which it ends with. -/
structure Keeps (bound : Nat) (messages : List Value) (received : List Frame) (b : Backlog) : Prop where
  bound_eq : b.bound = bound
  accounts : ∃ waiting : List Frame, b.messages = waiting.map Frame.value ∧
    Accounts messages (received ++ waiting) ∧ due (received ++ waiting) = messages.length

theorem enqueue_keeps {bound : Nat} (hb : 2 ≤ bound) {messages : List Value} {received : List Frame}
    {b : Backlog} (h : Keeps bound messages received b) (message : Value) :
    ∃ b', b.enqueue message = some b' ∧ Keeps bound (messages ++ [message]) received b' := by
  obtain ⟨hbound, waiting, hw, ha, hd⟩ := h
  have hlast : (messages ++ [message])[messages.length]? = some message := by simp
  have hdue : due received ≤ messages.length := (ha.take rfl).due_le
  have hgrown := ha.grow [message]
  unfold enqueue
  split
  · -- what waited is lost: a mark stands for it, and there is room for the mark and the message
    refine ⟨{ b with messages := [resync message b.messages.length, message] }, ?_, hbound,
      [.mark message b.messages.length, .message messages.length message], rfl, ?_, ?_⟩
    · have hroom : b.bound ≠ 0 ∧ ¬b.bound ≤ 1 := by omega
      simp [put, isFull, hroom.1, hroom.2]
    · rw [List.append_cons received]
      have hm := (hgrown.take rfl).mark message b.messages.length
      refine hm.message hlast ?_ fun _ => ⟨_, _, _, rfl⟩
      rwa [due_mark]
    · rw [List.append_cons received, due_message, List.length_append, List.length_singleton]
  · rename_i hfull
    refine ⟨{ b with messages := b.messages ++ [message] }, by simp [put, hfull], hbound,
      waiting ++ [.message messages.length message], by simp [hw, Frame.value], ?_, ?_⟩
    · rw [← List.append_assoc]
      exact hgrown.message hlast (by omega) (fun hlt => by omega)
    · rw [← List.append_assoc, due_message, List.length_append, List.length_singleton]

theorem act_keeps {bound : Nat} (hb : 2 ≤ bound) {messages : List Value} {received : List Frame}
    {b : Backlog} (h : Keeps bound messages received b) (a : Act) :
    ∃ b' frames, b.act a = some (b', frames.map Frame.value) ∧
      Keeps bound (messages ++ enqueued [a]) (received ++ frames) b' := by
  cases a with
  | enqueue message =>
    obtain ⟨b', he, hk⟩ := enqueue_keeps hb h message
    exact ⟨b', [], by simp [act, he], by simpa [enqueued] using hk⟩
  | take =>
    obtain ⟨hbound, waiting, hw, ha, hd⟩ := h
    cases waiting with
    | nil =>
      refine ⟨b, [], by simp [act, take?, hw], hbound, [], hw, ?_⟩
      simpa [enqueued] using And.intro ha hd
    | cons f waiting =>
      refine ⟨{ b with messages := waiting.map Frame.value }, [f], by simp [act, take?, hw], hbound,
        waiting, rfl, ?_⟩
      simpa [enqueued] using And.intro ha hd

theorem perform_keeps {bound : Nat} (hb : 2 ≤ bound) (acts : List Act) :
    ∀ {messages : List Value} {received : List Frame} {b : Backlog},
      Keeps bound messages received b →
      ∃ b' frames, b.perform acts = some (b', frames.map Frame.value) ∧
        Keeps bound (messages ++ enqueued acts) (received ++ frames) b' := by
  induction acts with
  | nil =>
    intro messages received b h
    exact ⟨b, [], rfl, by simpa [enqueued] using h⟩
  | cons a acts ih =>
    intro messages received b h
    obtain ⟨b₁, first, hfirst, h₁⟩ := act_keeps hb h a
    obtain ⟨b₂, rest, hrest, h₂⟩ := ih h₁
    refine ⟨b₂, first ++ rest, by simp [perform, hfirst, hrest], ?_⟩
    have he : enqueued (a :: acts) = enqueued [a] ++ enqueued acts := by
      cases a <;> rfl
    simpa [he] using h₂

/-- However messages are queued and taken, a queue with room for two refuses none of them. What the
client receives are messages among marks: the messages are some of those that were queued, in order,
and wherever one arrives that is not the next after the one before, or not the first of all, a mark
arrived right before it. -/
theorem losses_marked {bound : Nat} (hb : 2 ≤ bound) (acts : List Act) :
    ∃ b frames, (Backlog.mk bound []).perform acts = some (b, frames.map Frame.value) ∧
      (frames.filterMap Frame.content?).Sublist (enqueued acts) ∧
      Accounts (enqueued acts) frames := by
  have start : Keeps bound [] [] ⟨bound, []⟩ := ⟨rfl, [], rfl, .nil, rfl⟩
  obtain ⟨b, frames, hp, -, waiting, -, ha, -⟩ := perform_keeps hb acts start
  have hf : Accounts (enqueued acts) frames := by simpa using ha.take rfl
  exact ⟨b, frames, by simpa using hp, hf.contents_sublist.trans (List.take_sublist _ _), hf⟩

/-- Room for two, and two overflows, the second of which takes the mark of the first along. -/
theorem losses_marked_twice :
    let message (n : Nat) : Value := .obj [("type", .str "node.started"), ("seq", .nat n)]
    let acts := [1, 2, 3, 4].map (Act.enqueue ∘ message) ++ [.take, .take, .take]
    (Backlog.mk 2 []).perform acts = some (⟨2, []⟩, [resync (message 4) 2, message 4]) ∧
      ∃ b frames, (Backlog.mk 2 []).perform acts = some (b, frames.map Frame.value) ∧
        (frames.filterMap Frame.content?).Sublist (enqueued acts) ∧
        Accounts (enqueued acts) frames :=
  ⟨rfl, losses_marked (by decide) _⟩

/-! What becomes of the messages, by number. -/

namespace Frame

def numbered? : Frame → Option (Value × Nat)
  | message number content => some (content, number)
  | mark _ _ => none

def isMark : Frame → Bool
  | message _ _ => false
  | mark _ _ => true

/-- How many losses a frame tells of. -/
def lost : Frame → Nat
  | message _ _ => 0
  | mark _ lost => lost

end Frame

/-- How many marks are among some frames. -/
def marks (frames : List Frame) : Nat :=
  frames.countP Frame.isMark

/-- Frames among which each one of some messages is found once, under its number, and marks of
overflows that dropped as much as fits into the queue. -/
structure StandsFor (bound : Nat) (messages : List Value) (frames : List Frame) : Prop where
  numbered : (frames.filterMap Frame.numbered?).Perm messages.zipIdx
  lost : ∀ before lost, .mark before lost ∈ frames → lost = bound

namespace StandsFor

variable {bound : Nat} {messages : List Value} {frames gs : List Frame}

theorem nil : StandsFor bound [] [] :=
  ⟨.refl _, by simp⟩

theorem perm (h : StandsFor bound messages frames) (hp : gs.Perm frames) :
    StandsFor bound messages gs :=
  ⟨(hp.filterMap _).trans h.numbered, fun before lost hm => h.lost before lost (hp.mem_iff.mp hm)⟩

theorem message (h : StandsFor bound messages frames) (m : Value) :
    StandsFor bound (messages ++ [m]) (.message messages.length m :: frames) where
  numbered := by
    have hnext : (messages ++ [m]).zipIdx = messages.zipIdx ++ [(m, messages.length)] := by
      simp [List.zipIdx_append]
    rw [hnext]
    exact (h.numbered.cons (m, messages.length)).trans (List.perm_append_singleton _ _).symm
  lost before lost hm := h.lost before lost (by simpa using hm)

theorem mark (h : StandsFor bound messages frames) (m : Value) :
    StandsFor bound messages (.mark m bound :: frames) where
  numbered := h.numbered
  lost before lost hm := by
    obtain hm | hm := List.mem_cons.mp hm
    · cases hm
      rfl
    · exact h.lost before lost hm

end StandsFor

/-- A queue in the course of acts, with the frames that the client has received and those that
overflows have dropped: together with those that wait they stand for the messages so far, and for each
mark as many frames were dropped as fit into the queue. -/
structure Conserves (bound : Nat) (messages : List Value) (received waiting dropped : List Frame)
    (b : Backlog) : Prop where
  bound_eq : b.bound = bound
  messages_eq : b.messages = waiting.map Frame.value
  length_le : waiting.length ≤ bound
  standsFor : StandsFor bound messages (received ++ waiting ++ dropped)
  dropped_eq : dropped.length = bound * marks (received ++ waiting ++ dropped)

namespace Conserves

variable {bound : Nat} {messages : List Value} {received waiting dropped : List Frame} {b : Backlog}

theorem append (h : Conserves bound messages received waiting dropped b) (hlt : waiting.length < bound)
    (message : Value) :
    Conserves bound (messages ++ [message]) received (waiting ++ [.message messages.length message])
      dropped { b with messages := b.messages ++ [message] } := by
  let last : Frame := .message messages.length message
  have hperm : (received ++ (waiting ++ [last]) ++ dropped).Perm
      (last :: (received ++ waiting ++ dropped)) := by
    rw [← List.append_assoc, List.append_assoc _ [last]]
    exact List.perm_middle
  refine ⟨h.bound_eq, by simp [h.messages_eq, Frame.value], ?_, ?_, ?_⟩
  · rw [List.length_append]
    exact hlt
  · exact (h.standsFor.message message).perm hperm
  · rw [marks, hperm.countP_eq, h.dropped_eq]
    simp [Frame.isMark, last, marks]

/-- What is dropped are as many frames as fit into the queue, since it was exactly full. -/
theorem overflow (h : Conserves bound messages received waiting dropped b) (hb : 2 ≤ bound)
    (hfull : waiting.length = bound) (message : Value) :
    Conserves bound (messages ++ [message]) received
      [.mark message bound, .message messages.length message] (dropped ++ waiting)
      { b with messages := [resync message bound, message] } := by
  let mark : Frame := .mark message bound
  let last : Frame := .message messages.length message
  have hperm : (received ++ [mark, last] ++ (dropped ++ waiting)).Perm
      (mark :: last :: (received ++ waiting ++ dropped)) := by
    have hmoved : (received ++ (dropped ++ waiting)).Perm (received ++ waiting ++ dropped) := by
      rw [List.append_assoc]
      exact List.perm_append_comm.append_left _
    rw [List.append_assoc]
    exact List.perm_middle.trans ((List.perm_middle.trans (hmoved.cons _)).cons _)
  refine ⟨h.bound_eq, rfl, hb, ?_, ?_⟩
  · exact ((h.standsFor.message message).mark message).perm hperm
  · have hmarks : marks (received ++ [mark, last] ++ (dropped ++ waiting)) =
        marks (received ++ waiting ++ dropped) + 1 := by
      rw [marks, hperm.countP_eq]
      simp [List.countP_cons, Frame.isMark, mark, last, marks]
    rw [List.length_append, h.dropped_eq, hfull, hmarks, Nat.mul_add_one]

end Conserves

end Workflow.Backlog
