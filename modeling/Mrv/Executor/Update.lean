/-
  Mrv.Executor.Update — what the operations of the executor do to its state.

  Hash maps are compared by what `lookup` sees.  Each operation has one lemma that says
  what it leaves under every key:

    * `register_registers`            — a certificate is stored, becomes active, and is
                                  recorded as seeing what the traversal finds (`Sees`),
    * `lookup_applyWindowCap`   — every active state is capped on its own,
    * `lookup_releaseBatch`     — the members are removed, nothing else,
    * `finalize_eq_ok`          — the certificates of the batch are sent.

  The rules at the end lift what these preserve to `on_committed_batch` and to runs.
-/
import Mrv.Executor.Run

namespace Mrv

open Relation (ReflTransGen)

namespace MrvExecutor

/-! ## §1. The traversal. -/

/-- The parents the traversal goes on to from a certificate. -/
def links (store : HashMap Digest Certificate) (minRound : ℕ) (digest : Digest) : List Digest :=
  match store.lookup digest with
  | none => []
  | some certificate =>
      if certificate.round ≤ minRound then [] else certificate.header.parents.toList

/-- The certificate is in store and not below the floor. -/
def Visible (store : HashMap Digest Certificate) (minRound : ℕ) (digest : Digest) : Prop :=
  (store.lookup digest).elim False (fun certificate => minRound ≤ certificate.round)

instance (store : HashMap Digest Certificate) (minRound : ℕ) (digest : Digest) :
    Decidable (Visible store minRound digest) := by
  unfold Visible
  cases store.lookup digest with
  | none => exact isFalse id
  | some certificate => exact inferInstanceAs (Decidable (minRound ≤ certificate.round))

theorem visible_iff {store : HashMap Digest Certificate} {minRound : ℕ} {digest : Digest} :
    Visible store minRound digest ↔
      ∃ c, store.lookup digest = some c ∧ minRound ≤ c.round := by
  unfold Visible
  cases store.lookup digest with
  | none => simp
  | some c => simp

/-- The traversal that starts at `x` gets to `d`. -/
def Sees (store : HashMap Digest Certificate) (minRound : ℕ) (x d : Digest) : Prop :=
  ReflTransGen (fun a b => b ∈ links store minRound a) x d ∧ Visible store minRound d

/-- The loop updates what it pops and can see. -/
theorem updateSeenLoop_eq (reachThreshold : ℕ) (store : HashMap Digest Certificate)
    (minRound round : ℕ) (author : PublicKey) (fuel : ℕ) (stack : List Digest)
    (visited : Finset Digest) (aufStates : HashMap Digest AufState) :
    State.updateSeenLoop reachThreshold store minRound round author fuel stack visited aufStates =
      (Dfs.popAll (links store minRound) fuel stack visited).map (fun out =>
        (out.filter (fun d => decide (Visible store minRound d))).foldl
          (fun m d => m.modify d (fun st => st.see reachThreshold round author)) aufStates) := by
  -- both loops pop the same stack; the states are updated on the way or at the end
  induction fuel generalizing stack visited aufStates with
  | zero => rfl
  | succ fuel ih =>
      cases stack with
      | nil => rfl
      | cons current stack =>
          unfold State.updateSeenLoop Dfs.popAll
          by_cases hvisited : current ∈ visited
          · simp only [if_pos hvisited]
            exact ih stack visited aufStates
          · simp only [if_neg hvisited]
            cases hstore : store.lookup current with
            | none =>
                have hlinks : links store minRound current = [] := by simp [links, hstore]
                have hhidden : ¬ Visible store minRound current := by simp [visible_iff, hstore]
                simp [ih, hlinks, hhidden, Function.comp_def]
            | some c =>
                by_cases hbelow : c.round < minRound
                · have hlinks : links store minRound current = [] := by
                    simp [links, hstore, hbelow.le]
                  have hhidden : ¬ Visible store minRound current := by
                    simp [visible_iff, hstore, hbelow]
                  simp [hbelow, ih, hlinks, hhidden, Function.comp_def]
                · have hvisible : Visible store minRound current := by
                    simpa [visible_iff, hstore] using hbelow
                  -- at the floor the author is noted, and the loop does not look further down
                  by_cases hfloor : c.round = minRound
                  · have hlinks : links store minRound current = [] := by
                      simp [links, hstore, hfloor]
                    simp [hfloor, ih, hlinks, hvisible, Function.comp_def]
                  · have hlinks : links store minRound current = c.header.parents.toList := by
                      have habove : ¬ c.round ≤ minRound := by omega
                      simp [links, hstore, habove]
                    simp [hbelow, hfloor, ih, hlinks, hvisible, Function.comp_def]

/-- The stored certificates have no more parents than the fuel allows for. -/
theorem sum_links_le (store : HashMap Digest Certificate) (minRound : ℕ) :
    ∑ d ∈ store.keys.toFinset, (links store minRound d).length ≤
      (store.values.map (fun c => c.header.parents.toList.length)).sum := by
  rw [List.sum_toFinset _ store.keys_nodup]
  show ((store.entries.map Sigma.fst).map _).sum ≤ ((store.entries.map Sigma.snd).map _).sum
  rw [List.map_map, List.map_map]
  apply List.sum_le_sum
  rintro ⟨d, c⟩ hmem
  have hlookup : store.lookup d = some c := AList.lookup_eq_some_iff.mpr hmem
  show (links store minRound d).length ≤ c.header.parents.toList.length
  unfold links
  rw [hlookup]
  show (if c.round ≤ minRound then [] else c.header.parents.toList).length ≤ _
  split
  · exact Nat.zero_le _
  · exact le_refl _

/-- **The traversal**: it updates exactly the states it sees, each once. -/
theorem updateSeen_spec (s : State) (reachThreshold round : ℕ) (author : PublicKey)
    (digest : Digest) :
    ∃ aufStates, s.updateSeenForNewCertificate reachThreshold round author digest =
        some { s with aufStates } ∧
      (∀ d, Sees s.store (s.activeFloorRound.getD round) digest d →
        aufStates.lookup d =
          (s.aufStates.lookup d).map (fun st => st.see reachThreshold round author)) ∧
      ∀ d, ¬ Sees s.store (s.activeFloorRound.getD round) digest d →
        aufStates.lookup d = s.aufStates.lookup d := by
  -- a digest that is not stored leads nowhere
  have hU : ∀ d, d ∉ s.store.keys.toFinset →
      links s.store (s.activeFloorRound.getD round) d = [] := by
    intro d hd
    rw [List.mem_toFinset, ← AList.mem_keys, ← AList.lookup_isSome, Bool.not_eq_true,
      Option.isSome_eq_false_iff, Option.isNone_iff_eq_none] at hd
    simp [links, hd]
  have hfuel : [digest].length + ∑ d ∈ s.store.keys.toFinset \ ∅,
      (links s.store (s.activeFloorRound.getD round) d).length < s.fuel := by
    have hsum := sum_links_le s.store (s.activeFloorRound.getD round)
    rw [Finset.sdiff_empty]
    unfold State.fuel
    rw [List.length_singleton]
    omega
  obtain ⟨out, hout⟩ := Dfs.popAll_total hU hfuel
  have hsearched := Dfs.popAll_searched hout
  -- what the loop popped is what is reached without passing below the floor
  have hmem : ∀ d, d ∈ out.filter
        (fun d => decide (Visible s.store (s.activeFloorRound.getD round) d)) ↔
      Sees s.store (s.activeFloorRound.getD round) digest d := by
    intro d
    rw [List.mem_filter, decide_eq_true_iff]
    unfold Sees
    rw [← Dfs.reach_empty]
    refine and_congr_left fun _ => ⟨fun hd => ?_, fun hd => ?_⟩
    · obtain ⟨x, hx, _, hreach⟩ := hsearched.reached d hd
      rw [List.mem_singleton.mp hx] at hreach
      exact hreach
    · have hstart := hsearched.starts digest List.mem_cons_self
      exact hsearched.closed.reach (hstart.resolve_left (Finset.notMem_empty _)) hd
  refine ⟨(out.filter
      (fun d => decide (Visible s.store (s.activeFloorRound.getD round) d))).foldl
        (fun m d => m.modify d (fun st => st.see reachThreshold round author)) s.aufStates,
    ?_, fun d hd => ?_, fun d hd => ?_⟩
  · unfold State.updateSeenForNewCertificate
    dsimp only
    rw [updateSeenLoop_eq, hout]
    rfl
  · rw [AList.lookup_foldl_modify (hsearched.nodup.filter _), if_pos ((hmem d).mpr hd)]
  · rw [AList.lookup_foldl_modify (hsearched.nodup.filter _), if_neg (fun h => hd ((hmem d).mp h))]

/-! ## §2. Recording a certificate. -/

section

variable [Crypto] {core : MrvExecutor} {s s' : State}

omit [Crypto] in
theorem lookup_activate (s : State) (digest : Digest) (round : ℕ) (d : Digest) :
    (s.activate digest round).aufStates.lookup d =
      if d = digest ∧ s.aufStates.lookup digest = none then some (AufState.new round)
      else s.aufStates.lookup d := by
  unfold State.activate
  by_cases hnone : s.aufStates.lookup digest = none
  · rw [if_pos hnone]
    show (s.aufStates.insert digest (AufState.new round)).lookup d = _
    rw [AList.lookup_insert_eq_ite]
    simp only [hnone, and_true]
  · rw [if_neg hnone]
    simp only [hnone, and_false, if_false]

omit [Crypto] in
/-- The floor after a certificate became active. -/
theorem floor_activate (s : State) (digest : Digest) (round : ℕ) :
    (s.activate digest round).activeFloorRound =
      if s.aufStates.lookup digest = none then
        some (s.activeFloorRound.elim round (fun m => min m round))
      else s.activeFloorRound := by
  unfold State.activate
  split
  · rfl
  · rfl

/-- What recording a certificate does. -/
structure Registers (core : MrvExecutor) (s : State) (c : Certificate) (s' : State) : Prop where
  store : s'.store = s.store.insert c.digest c
  frontier : s'.frontierRound = max s.frontierRound c.round
  batches : s'.batches = s.batches
  txOutput : s'.txOutput = s.txOutput
  floor : s'.activeFloorRound = (s.activate c.digest c.round).activeFloorRound
  seen : ∀ d, Sees s'.store (s'.activeFloorRound.getD c.round) c.digest d →
    s'.aufStates.lookup d = ((s.activate c.digest c.round).aufStates.lookup d).map
      (fun st => st.see core.reachThreshold c.round c.origin)
  unseen : ∀ d, ¬ Sees s'.store (s'.activeFloorRound.getD c.round) c.digest d →
    s'.aufStates.lookup d = (s.activate c.digest c.round).aufStates.lookup d

theorem register_registers (core : MrvExecutor) (s : State) (c : Certificate) :
    ∃ s', s.register core c = some s' ∧ Registers core s c s' := by
  let stored : State := { s with
    frontierRound := max s.frontierRound c.round
    store := s.store.insert c.digest c }
  obtain ⟨aufStates, heq, hseen, hunseen⟩ := updateSeen_spec (stored.activate c.digest c.round)
    core.reachThreshold c.round c.origin c.digest
  -- activating reads neither the store nor the frontier
  have hfields : stored.activate c.digest c.round =
      { s.activate c.digest c.round with
        frontierRound := max s.frontierRound c.round
        store := s.store.insert c.digest c } := by
    unfold State.activate
    split
    · rfl
    · rfl
  have hstore : (s.activate c.digest c.round).batches = s.batches ∧
      (s.activate c.digest c.round).txOutput = s.txOutput := by
    unfold State.activate
    split
    · exact ⟨rfl, rfl⟩
    · exact ⟨rfl, rfl⟩
  rw [hfields] at heq hseen hunseen
  refine ⟨{ s.activate c.digest c.round with
      frontierRound := max s.frontierRound c.round
      store := s.store.insert c.digest c
      aufStates }, ?_, ?_⟩
  · show (stored.activate c.digest c.round).updateSeenForNewCertificate _ _ _ _ = _
    rw [hfields]
    exact heq
  · exact ⟨rfl, rfl, hstore.1, hstore.2, rfl, hseen, hunseen⟩

theorem registers_of_eq {c : Certificate} (h : s.register core c = some s') : Registers core s c s' := by
  obtain ⟨t, ht, hregisters⟩ := register_registers core s c
  rw [h, Option.some.injEq] at ht
  rw [ht]
  exact hregisters

/-- Recording certificates one after the other. -/
theorem registerAll_total (core : MrvExecutor) (cs : List Certificate) (s : State) :
    ∃ s', cs.foldlM (State.register core) s = some s' := by
  induction cs generalizing s with
  | nil => exact ⟨s, rfl⟩
  | cons c cs ih =>
      obtain ⟨t, ht, _⟩ := register_registers core s c
      obtain ⟨s', hs'⟩ := ih t
      refine ⟨s', ?_⟩
      rw [List.foldlM_cons, ht]
      exact hs'

/-- **The rule for the loop over the certificates of a batch.** -/
theorem registerAll_rule {P : List Certificate → State → Prop} {cs : List Certificate}
    (hstep : ∀ pre c post s s', cs = pre ++ c :: post → P pre s → Registers core s c s' →
      P (pre ++ [c]) s')
    (hinit : P [] s) (h : cs.foldlM (State.register core) s = some s') : P cs s' := by
  have hloop : ∀ (post pre : List Certificate) (t : State), cs = pre ++ post → P pre t →
      post.foldlM (State.register core) t = some s' → P cs s' := by
    intro post
    induction post with
    | nil =>
        intro pre t hcs hP hrun
        rw [List.append_nil] at hcs
        rw [hcs, ← Option.some.inj hrun]
        exact hP
    | cons c post ih =>
        intro pre t hcs hP hrun
        rw [List.foldlM_cons] at hrun
        obtain ⟨t', ht', hrun⟩ := Option.bind_eq_some_iff.mp hrun
        apply ih (pre ++ [c]) t' _ _ hrun
        · rw [hcs, List.append_assoc]
          rfl
        · exact hstep pre c post t t' hcs hP (registers_of_eq ht')
  exact hloop cs [] s rfl hinit h

end

/-! ## §3. Capping. -/

theorem lookup_applyWindowCap (core : MrvExecutor) (σ : HashOrder) (s : State) (d : Digest) :
    (core.applyWindowCap σ s).aufStates.lookup d =
      (s.aufStates.lookup d).map (core.capState s.frontierRound) := by
  have hnd : (σ.visit .states s.aufStates.keys).Nodup :=
    (σ.perm .states s.aufStates.keys).nodup_iff.mpr s.aufStates.keys_nodup
  show ((σ.visit .states s.aufStates.keys).foldl _ s.aufStates).lookup d = _
  rw [AList.lookup_foldl_modify hnd]
  split
  · rfl
  · next hd =>
    rw [HashOrder.mem_visit, ← AList.mem_keys] at hd
    rw [AList.lookup_eq_none.mpr hd]
    rfl

/-! ## §4. Releasing. -/

theorem lookup_removeMembers (floor : Option ℕ) (members : List Digest)
    (acc : HashMap Digest AufState × Bool) (d : Digest) :
    (State.removeMembers floor members acc).1.lookup d =
      if d ∈ members then none else acc.1.lookup d := by
  induction members generalizing acc with
  | nil => simp [State.removeMembers]
  | cons digest members ih =>
      show (State.removeMembers floor members (acc.1.erase digest, _)).1.lookup d = _
      rw [ih]
      by_cases heq : d = digest
      · subst heq
        simp
      · simp [heq, AList.lookup_erase_ne heq]

/-- Whether a state of the floor round is among those removed. -/
theorem removedFloor_iff (floor : Option ℕ) (members : List Digest)
    (acc : HashMap Digest AufState × Bool) :
    (State.removeMembers floor members acc).2 = true ↔
      acc.2 = true ∨ ∃ d ∈ members, ∃ st, acc.1.lookup d = some st ∧ some st.round = floor := by
  induction members generalizing acc with
  | nil => simp [State.removeMembers]
  | cons digest members ih =>
      show (State.removeMembers floor members (acc.1.erase digest, acc.2 ||
        (acc.1.lookup digest).elim false (fun st => decide (some st.round = floor)))).2 = true ↔ _
      rw [ih]
      -- the first member counts, or some later one does
      have hfirst : (acc.1.lookup digest).elim false
            (fun st => decide (some st.round = floor)) = true ↔
          ∃ st, acc.1.lookup digest = some st ∧ some st.round = floor := by
        cases acc.1.lookup digest with
        | none => simp
        | some st => simp
      rw [Bool.or_eq_true, hfirst, or_assoc]
      apply or_congr_right
      constructor
      · rintro (hst | ⟨d, hd, st, hst, hround⟩)
        · exact ⟨digest, List.mem_cons_self, hst⟩
        · by_cases heq : d = digest
          · subst heq
            simp at hst
          · rw [AList.lookup_erase_ne heq] at hst
            exact ⟨d, List.mem_cons_of_mem _ hd, st, hst, hround⟩
      · rintro ⟨d, hd, st, hst, hround⟩
        by_cases heq : d = digest
        · exact Or.inl ⟨st, heq ▸ hst, hround⟩
        · refine Or.inr ⟨d, (List.mem_cons.mp hd).resolve_left heq, st, ?_, hround⟩
          rw [AList.lookup_erase_ne heq]
          exact hst

section

variable {core : MrvExecutor} {s s' : State} {σ : HashOrder} {batchIndex : ℕ}
  {members : List Digest}

theorem lookup_releaseBatch (s : State) (σ : HashOrder) (batchIndex : ℕ) (members : List Digest)
    (d : Digest) :
    (s.releaseBatch σ batchIndex members).aufStates.lookup d =
      if d ∈ members then none else s.aufStates.lookup d := by
  rw [← lookup_removeMembers s.activeFloorRound members (s.aufStates, false) d]
  unfold State.releaseBatch
  dsimp only
  split
  · rfl
  · rfl

/-- What a release leaves alone. -/
theorem releaseBatch_frame (s : State) (σ : HashOrder) (batchIndex : ℕ) (members : List Digest) :
    (s.releaseBatch σ batchIndex members).store = s.store ∧
      (s.releaseBatch σ batchIndex members).batches = s.batches.erase batchIndex ∧
      (s.releaseBatch σ batchIndex members).frontierRound = s.frontierRound ∧
      (s.releaseBatch σ batchIndex members).txOutput = s.txOutput := by
  unfold State.releaseBatch
  dsimp only
  split
  · exact ⟨rfl, rfl, rfl, rfl⟩
  · exact ⟨rfl, rfl, rfl, rfl⟩

/-! ## §5. Output. -/

theorem sendAll_eq_some {cs : List Certificate} (h : cs.foldlM core.send s = some s') :
    s' = { s with txOutput := s.txOutput ++ cs } := by
  induction cs generalizing s with
  | nil =>
      rw [← Option.some.inj h, List.append_nil]
  | cons c cs ih =>
      rw [List.foldlM_cons] at h
      obtain ⟨t, ht, h⟩ := Option.bind_eq_some_iff.mp h
      unfold send at ht
      split at ht
      · exact absurd ht.symm (Option.some_ne_none t)
      · rw [ih h, ← Option.some.inj ht]
        simp

/-- A receiver that is never dropped takes everything. -/
theorem sendAll_total (hcapacity : core.capacity = none) (s : State) (cs : List Certificate) :
    cs.foldlM core.send s = some { s with txOutput := s.txOutput ++ cs } := by
  induction cs generalizing s with
  | nil => simp
  | cons c cs ih =>
      have hsend : core.send s c = some { s with txOutput := s.txOutput ++ [c] } := by
        unfold send
        rw [hcapacity]
        exact if_neg (Option.some_ne_none _).symm
      rw [List.foldlM_cons, hsend]
      show cs.foldlM core.send _ = _
      rw [ih]
      simp

/-- The state after a batch was sent. -/
def State.sent (s : State) (sorted : List Digest) : State :=
  { s with txOutput := s.txOutput ++ sorted.filterMap s.store.lookup }

theorem finalize_eq_ok (h : core.finalize σ s batchIndex members = .ok s') :
    ∃ sorted, core.sortBatch s σ members = some sorted ∧
      s' = (s.sent sorted).releaseBatch σ batchIndex members := by
  unfold finalize at h
  split at h
  · cases h
  · next sorted hsorted =>
    split at h
    · cases h
    · next t ht =>
      refine ⟨sorted, hsorted, ?_⟩
      rw [← Except.ok.inj h, sendAll_eq_some ht]
      rfl

theorem finalize_total (hcapacity : core.capacity = none) {sorted : List Digest}
    (hsorted : core.sortBatch s σ members = some sorted) :
    core.finalize σ s batchIndex members =
      .ok ((s.sent sorted).releaseBatch σ batchIndex members) := by
  unfold finalize
  rw [hsorted]
  dsimp only
  rw [sendAll_total hcapacity]
  rfl

theorem batchHorizon_eq_some {h : ℕ} :
    s.batchHorizon members = some h →
      ∀ d ∈ members, ∃ st k, s.aufStates.lookup d = some st ∧ st.horizon = some k ∧ k ≤ h := by
  have hloop : ∀ (members : List Digest) (start : ℕ),
      members.foldlM (fun horizon digest =>
        ((s.aufStates.lookup digest).bind AufState.horizon).map (fun k => max horizon k)) start =
          some h →
      start ≤ h ∧
        ∀ d ∈ members, ∃ st k, s.aufStates.lookup d = some st ∧ st.horizon = some k ∧ k ≤ h := by
    intro members
    induction members with
    | nil =>
        intro start hrun
        rw [Option.some.inj hrun]
        exact ⟨le_refl h, by simp⟩
    | cons d members ih =>
        intro start hrun
        rw [List.foldlM_cons] at hrun
        obtain ⟨t, ht, hrun⟩ := Option.bind_eq_some_iff.mp hrun
        obtain ⟨k, hk, rfl⟩ := Option.map_eq_some_iff.mp ht
        obtain ⟨st, hst, hk⟩ := Option.bind_eq_some_iff.mp hk
        obtain ⟨hle, hmembers⟩ := ih _ hrun
        refine ⟨(le_max_left start k).trans hle, ?_⟩
        rw [List.forall_mem_cons]
        exact ⟨⟨st, k, hst, hk, (le_max_right start k).trans hle⟩, hmembers⟩
  exact fun hrun => (hloop members 0 hrun).2

theorem batchHorizon_eq_none (h : s.batchHorizon members = none) :
    ∃ d ∈ members, (s.aufStates.lookup d).bind AufState.horizon = none := by
  by_contra hall
  push Not at hall
  have hloop : ∀ (members : List Digest) (start : ℕ),
      (∀ d ∈ members, (s.aufStates.lookup d).bind AufState.horizon ≠ none) →
      members.foldlM (fun horizon digest =>
        ((s.aufStates.lookup digest).bind AufState.horizon).map (fun k => max horizon k)) start ≠
          none := by
    intro members
    induction members with
    | nil => exact fun start _ => Option.some_ne_none start
    | cons d members ih =>
        intro start hmembers
        rw [List.forall_mem_cons] at hmembers
        obtain ⟨k, hk⟩ := Option.ne_none_iff_exists'.mp hmembers.1
        rw [List.foldlM_cons, hk]
        exact ih _ hmembers.2
  exact hloop members 0 hall h

theorem batchHorizon_le {h f : ℕ} (hrun : s.batchHorizon members = some h)
    (hle : ∀ d st k, s.aufStates.lookup d = some st → st.horizon = some k → k ≤ f) : h ≤ f := by
  have hloop : ∀ (members : List Digest) (start : ℕ), start ≤ f →
      members.foldlM (fun horizon digest =>
        ((s.aufStates.lookup digest).bind AufState.horizon).map (fun k => max horizon k)) start =
          some h → h ≤ f := by
    intro members
    induction members with
    | nil =>
        intro start hstart hrun
        rw [← Option.some.inj hrun]
        exact hstart
    | cons d members ih =>
        intro start hstart hrun
        rw [List.foldlM_cons] at hrun
        obtain ⟨t, ht, hrun⟩ := Option.bind_eq_some_iff.mp hrun
        obtain ⟨k, hk, rfl⟩ := Option.map_eq_some_iff.mp ht
        obtain ⟨st, hst, hk⟩ := Option.bind_eq_some_iff.mp hk
        exact ih _ (max_le hstart (hle d st k hst hk)) hrun
  exact hloop members 0 (Nat.zero_le f) hrun

end

end MrvExecutor

end Mrv
