/-
  Mrv.Primary.Suspension — what becomes of a suspended header
  (`primary/src/header_waiter.rs`).

  The `HeaderWaiter` keeps a header under its id until its dependencies are stored
  and then loops it back.  Its cleanup gives up on the headers up to the collected
  round, this round included, while the core still takes headers of this very round.
  And a header whose id is already pending is not kept at all.  Off these two
  cases no header is lost: it waits, it is on its way back, the core took it back, or
  it was dropped when the core would have refused it (`header_not_lost`).
-/
import Mrv.Primary.Run

namespace Mrv

/-! ## §1. Headers that wait. -/

namespace HeaderWaiter

variable {w : HeaderWaiter} {h : Header} {x : Waiting} {i : ℕ}

/-- A command is taken: its header waits under its id. -/
def register (w : HeaderWaiter) (message : WaiterMessage) : HeaderWaiter :=
  { pending := w.pending.insert message.header.id (message.header.round, w.nextHandle)
    waiting := w.waiting ++ [⟨w.nextHandle, waitFor message, message.header⟩]
    nextHandle := w.nextHandle + 1 }

/-- A wait comes to its end: its header is no longer pending. -/
def finish (w : HeaderWaiter) (i : ℕ) (x : Waiting) : HeaderWaiter :=
  { w with pending := w.pending.erase x.deliver.id, waiting := w.waiting.eraseIdx i }

/-- A canceled wait is discarded. -/
def discard (w : HeaderWaiter) (i : ℕ) : HeaderWaiter :=
  { w with waiting := w.waiting.eraseIdx i }

/-- A header is pending: it waits, and the wait was not canceled. -/
def Awaits (w : HeaderWaiter) (h : Header) : Prop :=
  ∃ x ∈ w.waiting, x.deliver = h ∧ w.pending.lookup h.id = some (h.round, x.handle)

/-- What is pending under an id is a header with this id. -/
def Sound (w : HeaderWaiter) : Prop :=
  ∀ d e, w.pending.lookup d = some e → ∃ h : Header, h.id = d ∧ w.Awaits h

theorem sound_new : Sound new := by
  intro d e hlookup
  have hnone : (∅ : HashMap Digest (ℕ × ℕ)).lookup d = none := AList.lookup_empty d
  rw [show new.pending = ∅ from rfl, hnone] at hlookup
  exact absurd hlookup.symm (Option.some_ne_none e)

/-! ## §2. What each step of the waiter leaves. -/

theorem awaits_register (w : HeaderWaiter) (message : WaiterMessage) :
    (w.register message).Awaits message.header := by
  refine ⟨_, List.mem_append_right _ List.mem_cons_self, rfl, ?_⟩
  exact AList.lookup_insert _

theorem Awaits.register {message : WaiterMessage} (hw : w.Awaits h)
    (hid : h.id ≠ message.header.id) : (w.register message).Awaits h := by
  obtain ⟨x, hx, hdeliver, hlookup⟩ := hw
  refine ⟨x, List.mem_append_left _ hx, hdeliver, ?_⟩
  show (w.pending.insert message.header.id _).lookup h.id = _
  rw [AList.lookup_insert_ne hid]
  exact hlookup

theorem Awaits.finish (hw : w.Awaits h) (hget : w.waiting[i]? = some x)
    (hid : h.id ≠ x.deliver.id) : (w.finish i x).Awaits h := by
  obtain ⟨y, hy, rfl, hlookup⟩ := hw
  have hne : y ≠ x := fun heq => hid (by rw [heq])
  refine ⟨y, ((mem_iff_mem_eraseIdx hget).mp hy).resolve_left hne, rfl, ?_⟩
  show (w.pending.erase x.deliver.id).lookup y.deliver.id = _
  rw [AList.lookup_erase_ne hid]
  exact hlookup

theorem Awaits.discard (hw : w.Awaits h) (hget : w.waiting[i]? = some x)
    (hcanceled : w.canceled x.handle = true) : (w.discard i).Awaits h := by
  obtain ⟨y, hy, hdeliver, hlookup⟩ := hw
  have hlive := of_decide_eq_true hcanceled _ (AList.mem_values_of_lookup hlookup)
  have hne : y ≠ x := fun heq => hlive (by rw [heq])
  exact ⟨y, ((mem_iff_mem_eraseIdx hget).mp hy).resolve_left hne, hdeliver, hlookup⟩

/-- **The cleanup**: what it keeps is above the collected round. -/
theorem awaits_cleanup_iff {gcDepth consensusRound : ℕ} :
    (w.cleanup gcDepth consensusRound).Awaits h ↔
      w.Awaits h ∧ (gcDepth < consensusRound → consensusRound - gcDepth < h.round) := by
  unfold Awaits
  rw [waiting_cleanup]
  unfold cleanup
  by_cases hgc : gcDepth < consensusRound
  · simp only [if_pos hgc, AList.lookup_retain]
    constructor
    · rintro ⟨x, hx, hdeliver, hlookup⟩
      obtain ⟨e, he, hkept⟩ := Option.bind_eq_some_iff.mp hlookup
      split at hkept
      · next hround =>
        obtain rfl := Option.some.inj hkept
        exact ⟨⟨x, hx, hdeliver, he⟩, fun _ => hround⟩
      · simp at hkept
    · rintro ⟨⟨x, hx, hdeliver, hlookup⟩, hround⟩
      refine ⟨x, hx, hdeliver, ?_⟩
      rw [hlookup, Option.bind_some, if_pos (hround hgc)]
  · simp [hgc]

theorem Sound.register (hs : w.Sound) (message : WaiterMessage) : (w.register message).Sound := by
  intro d e hlookup
  by_cases hid : d = message.header.id
  · exact ⟨message.header, hid.symm, awaits_register w message⟩
  · change (w.pending.insert message.header.id _).lookup d = some e at hlookup
    rw [AList.lookup_insert_ne hid] at hlookup
    obtain ⟨h, rfl, hw⟩ := hs d e hlookup
    exact ⟨h, rfl, hw.register hid⟩

theorem Sound.finish (hs : w.Sound) (hget : w.waiting[i]? = some x) : (w.finish i x).Sound := by
  intro d e hlookup
  change (w.pending.erase x.deliver.id).lookup d = some e at hlookup
  by_cases hid : d = x.deliver.id
  · rw [hid, AList.lookup_erase] at hlookup
    exact absurd hlookup.symm (Option.some_ne_none e)
  · rw [AList.lookup_erase_ne hid] at hlookup
    obtain ⟨h, rfl, hw⟩ := hs d e hlookup
    exact ⟨h, rfl, hw.finish hget hid⟩

theorem Sound.discard (hs : w.Sound) (hget : w.waiting[i]? = some x)
    (hcanceled : w.canceled x.handle = true) : (w.discard i).Sound := by
  intro d e hlookup
  obtain ⟨h, hid, hw⟩ := hs d e hlookup
  exact ⟨h, hid, hw.discard hget hcanceled⟩

theorem Sound.cleanup (hs : w.Sound) (gcDepth consensusRound : ℕ) :
    (w.cleanup gcDepth consensusRound).Sound := by
  intro d e hlookup
  unfold HeaderWaiter.cleanup at hlookup
  split at hlookup
  · next hgc =>
    rw [AList.lookup_retain] at hlookup
    obtain ⟨e', he', hkept⟩ := Option.bind_eq_some_iff.mp hlookup
    obtain ⟨h, rfl, hw⟩ := hs d e' he'
    obtain ⟨x, hx, hdeliver, hown⟩ := hw
    obtain rfl := Option.some.inj (he'.symm.trans hown)
    split at hkept
    · next hround =>
      exact ⟨h, rfl, awaits_cleanup_iff.mpr ⟨⟨x, hx, hdeliver, hown⟩, fun _ => hround⟩⟩
    · simp at hkept
  · next hgc =>
    obtain ⟨h, hid, hw⟩ := hs d e hlookup
    exact ⟨h, hid, awaits_cleanup_iff.mpr ⟨hw, fun hlt => absurd hlt hgc⟩⟩

end HeaderWaiter

/-! ## §3. The waiter in a primary. -/

namespace Primary

variable {n n' : Primary} {a : Action} {w : HeaderWaiter} {h : Header} {gcDepth : ℕ}

/-- What a step makes of the waiter before it cleans up.  A command about a pending header
does not come so far. -/
inductive Serves (n : Primary) : Action → HeaderWaiter → Prop
  | register (message : WaiterMessage) (rest : List WaiterMessage)
      (htx : n.core.txHeaderWaiter = message :: rest)
      (hnew : n.headerWaiter.pending.lookup message.header.id = none) :
      Serves n .syncHeader (n.headerWaiter.register message)
  | finish (i : ℕ) (x : Waiting) (hget : n.headerWaiter.waiting[i]? = some x)
      (hstored : n.core.store.hasAll x.missing = true) :
      Serves n (.headerReady i) (n.headerWaiter.finish i x)
  | discard (i : ℕ) (x : Waiting) (hget : n.headerWaiter.waiting[i]? = some x)
      (hcanceled : n.headerWaiter.canceled x.handle = true) :
      Serves n (.headerCanceled i) (n.headerWaiter.discard i)
  | timer : Serves n .headerTimer n.headerWaiter

/-- The header that a step hands to the waiter. -/
def handed (n : Primary) : Action → Option Header
  | .syncHeader => n.core.txHeaderWaiter.head?.map WaiterMessage.header
  | _ => none

/-- The header that a step loops back. -/
def looped (n : Primary) : Action → Option Header
  | .headerReady i => n.headerWaiter.waiting[i]?.map Waiting.deliver
  | _ => none

/-- The header that the core takes back in a step. -/
def resumed (n : Primary) : Action → Option Header
  | .loopbackHeader => n.rxHeaderWaiter.head?
  | _ => none

/-- The core does not touch the waiter, and takes from its channel what it resumes. -/
theorem waiter_of_input {n₀ : Primary} {input : Core.Input}
    (hinput : n.input a = some (input, n₀)) :
    n₀.headerWaiter = n.headerWaiter ∧ n.handed a = none ∧
      n.rxHeaderWaiter = (n.resumed a).toList ++ n₀.rxHeaderWaiter := by
  cases feeds_of_input hinput with
  | loopbackHeader header rest hrx => exact ⟨rfl, rfl, by simp [resumed, hrx]⟩
  | _ => exact ⟨rfl, rfl, rfl⟩

/-- **The steps of the waiter**: one is served and cleaned up, or the waiter stays as it
is, and then a header that is handed to it is pending under its id.  What is looped back
goes to the channel. -/
theorem waiter_of_background (hback : n.background gcDepth a = some n') :
    n'.rxHeaderWaiter = n.rxHeaderWaiter ++ (n.looped a).toList ∧
      ((∃ w, n.Serves a w ∧ n'.headerWaiter = w.cleanup gcDepth n.consensusRound) ∨
        n'.headerWaiter = n.headerWaiter ∧
          ∀ x, n.handed a = some x → (n.headerWaiter.pending.lookup x.id).isSome) := by
  have hnil : n.rxHeaderWaiter = n.rxHeaderWaiter ++ [] := (List.append_nil _).symm
  cases works_of_background hback with
  | syncHeader message rest htx =>
      refine ⟨hnil, ?_⟩
      show (∃ w, n.Serves .syncHeader w ∧
        n.headerWaiter.receive gcDepth n.consensusRound message = _) ∨
        n.headerWaiter.receive gcDepth n.consensusRound message = _ ∧ _
      unfold HeaderWaiter.receive
      cases hpending : n.headerWaiter.pending.lookup message.header.id with
      | none => exact Or.inl ⟨_, .register message rest htx hpending, rfl⟩
      | some e =>
          refine Or.inr ⟨rfl, fun x hx => ?_⟩
          have hx : some message.header = some x := by simpa [handed, htx] using hx
          rw [← Option.some.inj hx, hpending]
          rfl
  | headerReady i x hget hstored =>
      exact ⟨by simp [looped, hget], Or.inl ⟨_, .finish i x hget hstored, rfl⟩⟩
  | headerCanceled i x hget hcanceled =>
      exact ⟨hnil, Or.inl ⟨_, .discard i x hget hcanceled, rfl⟩⟩
  | headerTimer => exact ⟨hnil, Or.inl ⟨_, .timer, rfl⟩⟩
  -- the other tasks have no part in this
  | _ => exact ⟨hnil, Or.inr ⟨rfl, fun x hx => by simp [handed] at hx⟩⟩

/-- What is handed to the waiter is pending then. -/
theorem Serves.handed (hw : n.Serves a w) (hh : n.handed a = some h) : w.Awaits h := by
  cases hw with
  | register message rest htx hnew =>
      have hh : some message.header = some h := by simpa [Primary.handed, htx] using hh
      rw [← Option.some.inj hh]
      exact HeaderWaiter.awaits_register _ _
  | finish => simp [Primary.handed] at hh
  | discard => simp [Primary.handed] at hh
  | timer => simp [Primary.handed] at hh

/-- A pending header stays pending, unless its wait ends or one of its id does. -/
theorem Serves.awaits (hw : n.Serves a w) (hh : n.headerWaiter.Awaits h)
    (hid : ∀ x, n.looped a = some x → h.id ≠ x.id) : w.Awaits h := by
  cases hw with
  | register message rest htx hnew =>
      refine hh.register fun heq => ?_
      obtain ⟨_, _, _, hlookup⟩ := hh
      rw [heq, hnew] at hlookup
      simp at hlookup
  | finish i x hget _ => exact hh.finish hget (hid x.deliver (by simp [looped, hget]))
  | discard i x hget hcanceled => exact hh.discard hget hcanceled
  | timer => exact hh

/-- What waits after a step waited before, or was handed over. -/
theorem Serves.of_awaits (hw : n.Serves a w) (hh : w.Awaits h) :
    h ∈ n.headerWaiter.waiting.map Waiting.deliver ++ (n.handed a).toList := by
  obtain ⟨x, hx, rfl, _⟩ := hh
  have hold (hmem : x ∈ n.headerWaiter.waiting) :
      x.deliver ∈ n.headerWaiter.waiting.map Waiting.deliver ++ (n.handed a).toList :=
    List.mem_append_left _ (List.mem_map_of_mem hmem)
  cases hw with
  | register message rest htx hnew =>
      obtain hmem | hnew := List.mem_append.mp hx
      · exact hold hmem
      · refine List.mem_append_right _ ?_
        rw [List.mem_singleton.mp hnew]
        simp [Primary.handed, htx]
  | finish i y hget _ => exact hold (List.mem_of_mem_eraseIdx hx)
  | discard i y hget _ => exact hold (List.mem_of_mem_eraseIdx hx)
  | timer => exact hold hx

theorem Serves.sound (hw : n.Serves a w) (hs : n.headerWaiter.Sound) : w.Sound := by
  cases hw with
  | register message _ _ _ => exact hs.register message
  | finish i x hget _ => exact hs.finish hget
  | discard i x hget hcanceled => exact hs.discard hget hcanceled
  | timer => exact hs

end Primary

namespace Core

open Primary (Serves)

variable [Crypto] {self : Core} {es : History} {n n' : Primary} {a : Primary.Action} {h : Header}

/-! ## §4. Headers are not lost. -/

/-- A header was handed to the waiter. -/
def Handed (es : History) (h : Header) : Prop := ∃ e ∈ es, e.1.handed e.2 = some h

instance (es : History) (h : Header) : Decidable (Handed es h) :=
  inferInstanceAs (Decidable (∃ e ∈ es, e.1.handed e.2 = some h))

/-- The core took a header back after it was handed to the waiter for the last time. -/
def Returned (es : History) (h : Header) : Prop :=
  ∃ later t a earlier, es = later ++ (t, a) :: earlier ∧ t.resumed a = some h ∧ ¬ Handed later h

/-- A header was dropped in a cleanup, when a core that had collected up to the same round
would have refused it. -/
def Dropped (self : Core) (es : History) (h : Header) : Prop :=
  ∃ t a w, (t, a) ∈ es ∧ t.Serves a w ∧ w.Awaits h ∧
    ¬ (w.cleanup self.gcDepth t.consensusRound).Awaits h ∧
    ∀ s : State, s.gcRound = t.consensusRound - self.gcDepth →
      self.sanitizeHeader s h = .error (.tooOld h.id h.round)

/-- Where a header is that was handed to the waiter. -/
inductive NotLost (self : Core) (es : History) (n : Primary) (h : Header) : Prop
  | pending (hwaits : n.headerWaiter.Awaits h)
  | returning (hlooped : h ∈ n.rxHeaderWaiter)
  | returned (hback : Returned es h)
  | dropped (hdropped : self.Dropped es h)

/-- The cleanup of a step meets a pending header of exactly the collected round. -/
def MeetsBoundary (self : Core) (n : Primary) (a : Primary.Action) : Prop :=
  ∃ w h, n.Serves a w ∧ w.Awaits h ∧ 0 < h.round ∧ h.round + self.gcDepth = n.consensusRound

/-- A header is handed to the waiter, or looped back, while another one is pending under
its id. -/
def Confuses (n : Primary) (a : Primary.Action) : Prop :=
  ∃ h x, n.headerWaiter.Awaits h ∧ (n.handed a = some x ∨ n.looped a = some x) ∧
    x.id = h.id ∧ x ≠ h

theorem sanitizeHeader_tooOld {s : State} (hround : h.round < s.gcRound) :
    self.sanitizeHeader s h = .error (.tooOld h.id h.round) := by
  unfold sanitizeHeader ensure
  rw [if_neg (by simpa using hround)]
  rfl

theorem sanitizeHeader_of_le {s : State} (hround : s.gcRound ≤ h.round) :
    self.sanitizeHeader s h = h.verify self.committee := by
  unfold sanitizeHeader ensure
  rw [if_pos (by simpa using hround)]
  rfl

/-- What the waiter keeps until its cleanup it keeps, or drops as too old. -/
theorem NotLost.of_serves {w : HeaderWaiter} (hserves : n.Serves a w)
    (hcleanup : n'.headerWaiter = w.cleanup self.gcDepth n.consensusRound)
    (hboundary : ¬ self.MeetsBoundary n a) (hwaits : w.Awaits h) :
    self.NotLost ((n, a) :: es) n' h := by
  by_cases hkept : (w.cleanup self.gcDepth n.consensusRound).Awaits h
  · exact .pending (by rw [hcleanup]; exact hkept)
  · refine .dropped ⟨n, a, w, List.mem_cons_self, hserves, hwaits, hkept, fun s hs => ?_⟩
    rw [HeaderWaiter.awaits_cleanup_iff] at hkept
    have hround : ¬ (0 < h.round ∧ h.round + self.gcDepth = n.consensusRound) :=
      fun heq => hboundary ⟨w, h, hserves, hwaits, heq⟩
    refine sanitizeHeader_tooOld ?_
    by_contra hle
    refine hkept ⟨hwaits, fun hgc => ?_⟩
    omega

/-- What is pending under an id is a header that waits. -/
theorem Run.sound (hrun : self.Run es n) : n.headerWaiter.Sound := by
  refine System.Run.invariant (P := fun _ n => n.headerWaiter.Sound) HeaderWaiter.sound_new
    ?_ hrun
  intro es n a n' _ hs (hnext : self.next n a = some n')
  obtain ⟨input, n₀, hinput, _, rfl⟩ | hback := next_cases hnext
  · show n₀.headerWaiter.Sound
    rw [(Primary.waiter_of_input hinput).1]
    exact hs
  · obtain ⟨w, hserves, hcleanup⟩ | ⟨hsame, _⟩ := (Primary.waiter_of_background hback).2
    · rw [hcleanup]
      exact (hserves.sound hs).cleanup _ _
    · rw [hsame]
      exact hs

/-- A header that is handed to the waiter in a step. -/
theorem NotLost.handed (hs : n.headerWaiter.Sound) (hback : n.background self.gcDepth a = some n')
    (hboundary : ¬ self.MeetsBoundary n a) (hconfuses : ¬ Confuses n a)
    (hh : n.handed a = some h) : self.NotLost ((n, a) :: es) n' h := by
  obtain ⟨w, hserves, hcleanup⟩ | ⟨hsame, hpending⟩ := (Primary.waiter_of_background hback).2
  · exact .of_serves hserves hcleanup hboundary (hserves.handed hh)
  · obtain ⟨e, he⟩ := Option.isSome_iff_exists.mp (hpending h hh)
    obtain ⟨x, hid, hwaits⟩ := hs _ _ he
    have heq : h = x := by
      by_contra hne
      exact hconfuses ⟨x, h, hwaits, Or.inl hh, hid.symm, hne⟩
    exact .pending (by rw [hsame, heq]; exact hwaits)

/-- A header that is pending before a step of another task. -/
theorem NotLost.pending_step (hwaits : n.headerWaiter.Awaits h)
    (hback : n.background self.gcDepth a = some n') (hboundary : ¬ self.MeetsBoundary n a)
    (hconfuses : ¬ Confuses n a) : self.NotLost ((n, a) :: es) n' h := by
  by_cases hlooped : n.looped a = some h
  · refine .returning ?_
    rw [(Primary.waiter_of_background hback).1, hlooped]
    exact List.mem_append_right _ List.mem_cons_self
  · obtain ⟨w, hserves, hcleanup⟩ | ⟨hsame, _⟩ := (Primary.waiter_of_background hback).2
    · refine .of_serves hserves hcleanup hboundary (hserves.awaits hwaits fun x hx heq => ?_)
      have hne : x ≠ h := fun hxh => hlooped (by rw [← hxh]; exact hx)
      exact hconfuses ⟨h, x, hwaits, Or.inr hx, heq.symm, hne⟩
    · exact .pending (by rw [hsame]; exact hwaits)

/-- **No suspended header is lost**: in a run whose cleanups meet no pending header of
exactly the collected round, and in which no two headers with one id meet at the waiter,
every header handed to the waiter is pending, on its way back, or was taken back by the
core since, or it was dropped when the core would have refused it as too old. -/
theorem header_not_lost (hrun : self.Run es n)
    (hboundary : ∀ e ∈ es, ¬ self.MeetsBoundary e.1 e.2)
    (hconfuses : ∀ e ∈ es, ¬ Confuses e.1 e.2) (h : Header) (hhanded : Handed es h) :
    self.NotLost es n h := by
  refine System.Run.invariant (P := fun es n => (∀ e ∈ es, ¬ self.MeetsBoundary e.1 e.2) →
    (∀ e ∈ es, ¬ Confuses e.1 e.2) → Handed es h → self.NotLost es n h) ?_ ?_ hrun
    hboundary hconfuses hhanded
  · intro _ _ hnone
    obtain ⟨e, he, _⟩ := hnone
    exact absurd he List.not_mem_nil
  · intro es n a n' hrun ih (hnext : self.next n a = some n') hboundary hconfuses hhanded
    obtain ⟨hb, hboundary⟩ := List.forall_mem_cons.mp hboundary
    obtain ⟨hc, hconfuses⟩ := List.forall_mem_cons.mp hconfuses
    have ih := ih hboundary hconfuses
    by_cases hnow : n.handed a = some h
    · obtain ⟨input, n₀, hinput, _, rfl⟩ | hback := next_cases hnext
      · rw [(Primary.waiter_of_input hinput).2.1] at hnow
        simp at hnow
      · exact .handed (Run.sound hrun) hback hb hc hnow
    · -- handed before, so that it had a place before the step
      have hbefore : Handed es h := by
        obtain ⟨e, he, hh⟩ := hhanded
        obtain rfl | he := List.mem_cons.mp he
        · exact absurd hh hnow
        · exact ⟨e, he, hh⟩
      cases ih hbefore with
      | pending hwaits =>
          obtain ⟨input, n₀, hinput, _, rfl⟩ | hback := next_cases hnext
          · refine .pending ?_
            show n₀.headerWaiter.Awaits h
            rw [(Primary.waiter_of_input hinput).1]
            exact hwaits
          · exact .pending_step hwaits hback hb hc
      | returning hlooped =>
          obtain ⟨input, n₀, hinput, _, rfl⟩ | hback := next_cases hnext
          · rw [(Primary.waiter_of_input hinput).2.2] at hlooped
            obtain htaken | hlooped := List.mem_append.mp hlooped
            · refine .returned ⟨[], n, a, es, rfl, ?_, ?_⟩
              · exact Option.mem_toList.mp htaken
              · rintro ⟨e, he, _⟩
                exact List.not_mem_nil he
            · exact .returning hlooped
          · refine .returning ?_
            rw [(Primary.waiter_of_background hback).1]
            exact List.mem_append_left _ hlooped
      | returned hreturned =>
          obtain ⟨later, t, b, earlier, rfl, htaken, hlater⟩ := hreturned
          refine .returned ⟨(n, a) :: later, t, b, earlier, rfl, htaken, ?_⟩
          rintro ⟨e, he, hh⟩
          obtain rfl | he := List.mem_cons.mp he
          · exact hnow hh
          · exact hlater ⟨e, he, hh⟩
      | dropped hdropped =>
          obtain ⟨t, b, w, hmem, hrest⟩ := hdropped
          exact .dropped ⟨t, b, w, List.mem_cons_of_mem _ hmem, hrest⟩

/-! ## §5. Examples. -/

/-- Two headers wait for their batches and a third one for its parents.  The first is looped
back and taken; round 52 is committed, and the waiter cleans up. -/
def sampleSuspended : List Primary.Action :=
  [.message (.header (sampleHeader 1 1 101 [1, 2, 3])), .syncHeader,
    .message (.header (sampleHeader 1 2 102 [1, 2, 3])), .syncHeader,
    .message (.header (sampleHeader 3 1 103 [0, 1, 2])), .syncHeader,
    .othersBatch (sampleBatch 101) 0, .headerReady 0, .loopbackHeader, .committed 52, .headerTimer]

omit [Crypto] in
set_option maxRecDepth 10000 in
theorem exists_suspendedRun :
    letI := sampleCrypto
    ∃ es n, sampleCore.Run es n ∧
      (∀ h ∈ [sampleHeader 1 1 101 [1, 2, 3], sampleHeader 1 2 102 [1, 2, 3],
        sampleHeader 3 1 103 [0, 1, 2]], ∃ e ∈ es, e.1.handed e.2 = some h) ∧
      (∀ e ∈ es, ∀ h ∈ e.1.headerWaiter.waiting.map Waiting.deliver ++ (e.1.handed e.2).toList,
        h.round + 50 ≠ e.1.consensusRound) ∧
      (∀ e ∈ es, ∀ w ∈ e.1.headerWaiter.waiting,
        ∀ x ∈ (e.1.handed e.2).toList ++ (e.1.looped e.2).toList,
          x.id = w.deliver.id → x = w.deliver) ∧
      n.headerWaiter.pending.keys = [sampleDigest 3 103] :=
  let _ := sampleCrypto
  let ⟨es, n, hrun, hcheck⟩ := System.exec_check sampleCore.system sampleSuspended
    (fun es n => decide (
      (∀ h ∈ [sampleHeader 1 1 101 [1, 2, 3], sampleHeader 1 2 102 [1, 2, 3],
        sampleHeader 3 1 103 [0, 1, 2]], ∃ e ∈ es, e.1.handed e.2 = some h) ∧
      (∀ e ∈ es, ∀ h ∈ e.1.headerWaiter.waiting.map Waiting.deliver ++ (e.1.handed e.2).toList,
        h.round + 50 ≠ e.1.consensusRound) ∧
      (∀ e ∈ es, ∀ w ∈ e.1.headerWaiter.waiting,
        ∀ x ∈ (e.1.handed e.2).toList ++ (e.1.looped e.2).toList,
          x.id = w.deliver.id → x = w.deliver) ∧
      n.headerWaiter.pending.keys = [sampleDigest 3 103]))
    (by decide +kernel)
  ⟨es, n, hrun, of_decide_eq_true hcheck⟩

omit [Crypto] in
/-- Of three headers that are handed to the waiter one is still pending after a cleanup. -/
theorem header_not_lost_sample :
    letI := sampleCrypto
    ∃ es n, sampleCore.Run es n ∧ n.headerWaiter.pending.keys = [sampleDigest 3 103] ∧
      ∀ h ∈ [sampleHeader 1 1 101 [1, 2, 3], sampleHeader 1 2 102 [1, 2, 3],
        sampleHeader 3 1 103 [0, 1, 2]], Handed es h ∧ sampleCore.NotLost es n h := by
  let _ := sampleCrypto
  obtain ⟨es, n, hrun, hhanded, hboundary, halone, hpending⟩ := exists_suspendedRun
  refine ⟨es, n, hrun, hpending, fun h hh => ⟨hhanded h hh,
    header_not_lost hrun (fun e he => ?_) (fun e he => ?_) h (hhanded h hh)⟩⟩
  · rintro ⟨w, x, hserves, hwaits, _, hround⟩
    exact hboundary e he x (hserves.of_awaits hwaits) hround
  · rintro ⟨h, x, ⟨w, hw, rfl, _⟩, hx, hid, hne⟩
    refine hne (halone e he w hw x ?_ hid)
    simpa [List.mem_append, Option.mem_toList] using hx

/-- A header of the second round waits for its parents when round 52 is committed. -/
def sampleLost : List Primary.Action :=
  [.message (.header (sampleHeader 2 1 101 [0, 1, 2])), .syncHeader, .committed 52, .headerTimer]

omit [Crypto] in
set_option maxRecDepth 10000 in
theorem exists_lostRun :
    letI := sampleCrypto
    ∃ es n, sampleCore.Run es n ∧ Handed es (sampleHeader 2 1 101 [0, 1, 2]) ∧
      n.headerWaiter.pending.lookup (sampleHeader 2 1 101 [0, 1, 2]).id = none ∧
      n.rxHeaderWaiter.isEmpty = true ∧
      ∀ e ∈ es, e.1.resumed e.2 = none ∧ e.1.consensusRound ≤ 52 :=
  let _ := sampleCrypto
  let ⟨es, n, hrun, hcheck⟩ := System.exec_check sampleCore.system sampleLost
    (fun es n => decide ((∃ e ∈ es, e.1.handed e.2 = some (sampleHeader 2 1 101 [0, 1, 2])) ∧
      n.headerWaiter.pending.lookup (sampleHeader 2 1 101 [0, 1, 2]).id = none ∧
      n.rxHeaderWaiter.isEmpty = true ∧
      ∀ e ∈ es, e.1.resumed e.2 = none ∧ e.1.consensusRound ≤ 52)) (by decide +kernel)
  ⟨es, n, hrun, of_decide_eq_true hcheck⟩

omit [Crypto] in
/-- **A header of the collected round is lost**: the waiter gives it up, and a core that had
collected up to this round would take it. -/
theorem header_lost :
    letI := sampleCrypto
    ¬ ∀ (self : Core) es n, self.Run es n → ∀ h, Handed es h → self.NotLost es n h := by
  let _ := sampleCrypto
  intro hclaim
  obtain ⟨es, n, hrun, hhanded, hpending, hempty, hsteps⟩ := exists_lostRun
  have hverify : letI := sampleCrypto
      (sampleHeader 2 1 101 [0, 1, 2]).verify sampleCore.committee = .ok () := by decide +kernel
  cases hclaim sampleCore es n hrun _ hhanded with
  | pending hwaits =>
      obtain ⟨_, _, _, hlookup⟩ := hwaits
      rw [hpending] at hlookup
      simp at hlookup
  | returning hlooped =>
      rw [List.isEmpty_iff.mp hempty] at hlooped
      exact List.not_mem_nil hlooped
  | returned hback =>
      obtain ⟨later, t, a, earlier, rfl, htaken, _⟩ := hback
      have hnone := (hsteps (t, a) (List.mem_append_right _ List.mem_cons_self)).1
      rw [hnone] at htaken
      simp at htaken
  | dropped hdropped =>
      obtain ⟨t, a, _, hmem, _, _, _, hrefused⟩ := hdropped
      have hround : t.consensusRound - 50 ≤ 2 := by
        have hle : t.consensusRound ≤ 52 := (hsteps (t, a) hmem).2
        omega
      have hrefused := hrefused { State.new with gcRound := t.consensusRound - 50 } rfl
      rw [sanitizeHeader_of_le hround, hverify] at hrefused
      simp at hrefused

end Core

end Mrv
