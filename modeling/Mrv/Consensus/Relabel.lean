/-
  Mrv.Consensus.Relabel — the consensus task does not read votes and signatures.

  Two authorities may hold different certificates of one header: each assembled its own
  votes.  `bare` strips a certificate of its votes and of the signature of its header.
  The task reads neither, so that stripping all certificates of a run gives a run of
  the task on the stripped certificates (`Run.bare`): each function of the task
  commutes with `bare`.  So tasks that take the same certificates up to votes and
  signatures do the same up to them (`votes_not_read`).
-/
import Mrv.Consensus.Linked

namespace Mrv

/-- A certificate without votes and signature. -/
def Certificate.bare (c : Certificate) : Certificate :=
  { header := { c.header with signature := Signature.default }, votes := [] }

namespace Certificate

variable (c other : Certificate)

@[simp] theorem round_bare : c.bare.round = c.round := rfl

@[simp] theorem origin_bare : c.bare.origin = c.origin := rfl

@[simp] theorem parents_bare : c.bare.header.parents = c.header.parents := rfl

@[simp] theorem digest_bare [Crypto] : c.bare.digest = c.digest := rfl

@[simp] theorem eq_bare : c.bare.eq other.bare = c.eq other := rfl

/-- A certificate with its digest, without votes and signature. -/
abbrev bareEntry (x : Digest × Certificate) : Digest × Certificate := (x.1, x.2.bare)

end Certificate

open Certificate (bareEntry)

/-! ## §1. The DAG in memory. -/

namespace Dag

variable (dag : Dag) (round : ℕ) (name : PublicKey)

/-- The DAG with bare certificates. -/
def bare : Dag := dag.mapValues (fun authorities => authorities.mapValues bareEntry)

theorem lookup_bare :
    dag.bare.lookup round = (dag.lookup round).map (fun authorities => authorities.mapValues bareEntry) :=
  AList.lookup_mapValues _ dag round

theorem find_bare : dag.bare.find round name = (dag.find round name).map bareEntry := by
  unfold find
  rw [lookup_bare]
  cases dag.lookup round with
  | none => rfl
  | some authorities => exact AList.lookup_mapValues _ authorities name

theorem add_bare (x : Digest × Certificate) :
    (dag.add round name x).bare = dag.bare.add round name (bareEntry x) := by
  unfold bare add
  rw [AList.mapValues_insert, AList.mapValues_insert, AList.lookup_mapValues]
  cases dag.lookup round <;> rfl

theorem cleanup_bare (gcDepth lastCommittedRound : ℕ) :
    (dag.cleanup gcDepth lastCommittedRound name round).bare
      = dag.bare.cleanup gcDepth lastCommittedRound name round := by
  refine (AList.retain_mapValues (fun r authorities => ?_) dag).symm
  have hinner : (authorities.mapValues bareEntry).retain
        (fun n x => if n ≠ name ∨ round ≤ r then some x else none)
      = (authorities.retain
        (fun n x => if n ≠ name ∨ round ≤ r then some x else none)).mapValues bareEntry :=
    AList.retain_mapValues (fun k v => by split <;> rfl) authorities
  dsimp only
  rw [hinner, AList.entries_mapValues]
  simp only [ne_eq, List.map_eq_nil_iff]
  split <;> rfl

theorem size_bare : dag.bare.size = dag.size := by
  unfold size bare
  rw [AList.values_mapValues, List.map_map]
  refine congrArg List.sum (List.map_congr_left fun authorities _ => ?_)
  show (AList.mapValues bareEntry authorities).values.length = _
  rw [AList.values_mapValues, List.length_map]

end Dag

/-! ## §2. The state. -/

namespace State

variable (s : State)

def bare : State := { s with dag := s.dag.bare }

theorem new_bare [Crypto] (committee : Committee) :
    (State.new (Certificate.genesis committee)).bare = State.new (Certificate.genesis committee) := by
  have hentries : ((Certificate.genesis committee).map (fun x => (x.origin, (x.digest, x)))).map
      (fun e => (e.1, bareEntry e.2))
        = (Certificate.genesis committee).map (fun x => (x.origin, (x.digest, x))) := by
    rw [List.map_map]
    refine List.map_congr_left fun x hx => ?_
    obtain ⟨name, _, rfl⟩ := Certificate.mem_genesis.mp hx
    rfl
  unfold bare State.new
  dsimp only
  congr 1
  unfold Dag.bare
  rw [AList.mapValues_insert, AList.collect_mapValues, hentries]
  rfl

theorem update_bare (c : Certificate) (gcDepth : ℕ) :
    (s.update c gcDepth).bare = s.bare.update c.bare gcDepth := by
  have hfold : ∀ (l : List (Sigma fun _ : PublicKey => ℕ)) (k : ℕ) (dag : Dag),
      (l.foldl (fun dag e => dag.cleanup gcDepth k e.1 e.2) dag).bare
        = l.foldl (fun dag e => dag.cleanup gcDepth k e.1 e.2) dag.bare := by
    intro l k
    induction l with
    | nil => exact fun _ => rfl
    | cons e l ih =>
        intro dag
        rw [List.foldl_cons, ih, Dag.cleanup_bare, List.foldl_cons]
  unfold bare update
  dsimp only
  rw [hfold]
  rfl

theorem updateAll_bare (batch : List Certificate) (gcDepth : ℕ) :
    (s.updateAll batch gcDepth).bare = s.bare.updateAll (batch.map Certificate.bare) gcDepth := by
  induction batch generalizing s with
  | nil => rfl
  | cons c batch ih =>
      rw [updateAll_cons, ih, update_bare, List.map_cons, updateAll_cons]

theorem nextParent_bare (x : Certificate) (parent : Digest) :
    s.bare.nextParent x.bare parent = (s.nextParent x parent).map bareEntry := by
  unfold nextParent
  rw [Certificate.round_bare, show s.bare.dag = s.dag.bare from rfl, Dag.lookup_bare]
  cases s.dag.lookup (x.round - 1) with
  | none => rfl
  | some authorities =>
      rw [Option.map_some, Option.bind_some, Option.bind_some, AList.values_mapValues, List.find?_map]
      rw [show (fun e : Digest × Certificate => decide (e.1 = parent)) ∘ bareEntry
        = fun e => decide (e.1 = parent) from rfl]
      cases authorities.values.find? (fun e => decide (e.1 = parent)) with
      | none => rfl
      | some e =>
          show (if s.lastCommitted.lookup e.2.origin = some e.2.round then none
            else some (bareEntry e)) = _
          dsimp only
          split <;> rfl

theorem nextParents_bare (x : Digest × Certificate) :
    s.bare.nextParents (bareEntry x) = (s.nextParents x).map (List.map bareEntry) := by
  unfold nextParents
  dsimp only
  rw [Certificate.parents_bare, Certificate.round_bare]
  split
  · rfl
  · split
    · rfl
    · show Except.ok _ = Except.ok _
      rw [List.map_filterMap]
      exact congrArg Except.ok (List.filterMap_congr fun p _ => s.nextParent_bare x.2 p)

end State

/-! ## §3. The commit rule. -/

namespace Consensus

variable {self : Consensus}

theorem leader_bare (round : ℕ) (dag : Dag) :
    self.leader round dag.bare = (self.leader round dag).map (Option.map bareEntry) := by
  unfold leader
  dsimp only
  cases (self.committee.authorities.keys.insertionSort (· ≤ ·))[round % self.committee.size]? with
  | none => rfl
  | some name =>
      dsimp only
      rw [Dag.find_bare]
      rfl

theorem linkedLayer_bare (dag : Dag) (rounds : List ℕ) (parents : List Certificate) :
    linkedLayer dag.bare rounds (parents.map Certificate.bare)
      = (linkedLayer dag rounds parents).map (List.map Certificate.bare) := by
  induction rounds generalizing parents with
  | nil => rfl
  | cons r rounds ih =>
      unfold linkedLayer
      rw [Dag.lookup_bare]
      cases dag.lookup r with
      | none => rfl
      | some authorities =>
          dsimp only [Option.map_some]
          rw [← ih, AList.values_mapValues, List.filter_map, List.map_map, List.map_map]
          simp only [List.any_map]
          rfl

theorem linked_bare (x y : Certificate) (dag : Dag) :
    linked x.bare y.bare dag.bare = linked x y dag := by
  unfold linked
  dsimp only
  rw [Certificate.round_bare, Certificate.round_bare,
    show [x.bare] = [x].map Certificate.bare from rfl, linkedLayer_bare]
  cases linkedLayer dag (List.range' y.round (x.round - y.round)).reverse [x] with
  | error e => rfl
  | ok parents =>
      show Except.ok ((parents.map Certificate.bare).any _) = Except.ok (parents.any _)
      rw [List.any_map]
      rfl

theorem orderLeadersLoop_bare (dag : Dag) (rounds : List ℕ) (leader : Certificate) :
    self.orderLeadersLoop dag.bare rounds leader.bare
      = (self.orderLeadersLoop dag rounds leader).map (List.map Certificate.bare) := by
  induction rounds generalizing leader with
  | nil => rfl
  | cons r rounds ih =>
      unfold orderLeadersLoop
      rw [leader_bare]
      cases self.leader r dag with
      | error e => rfl
      | ok o =>
          cases o with
          | none => exact ih leader
          | some x =>
              obtain ⟨d, prev⟩ := x
              show (linked leader.bare prev.bare dag.bare >>= fun b => _) = Except.map _
                (linked leader prev dag >>= fun b => _)
              rw [linked_bare]
              cases linked leader prev dag with
              | error e => rfl
              | ok b =>
                  cases b with
                  | false => exact ih leader
                  | true =>
                      show (self.orderLeadersLoop dag.bare rounds prev.bare >>= fun l => pure _)
                        = Except.map _ (self.orderLeadersLoop dag rounds prev >>= fun l => pure _)
                      rw [ih prev]
                      cases self.orderLeadersLoop dag rounds prev <;> rfl

theorem orderLeaders_bare (leader : Certificate) (s : State) :
    self.orderLeaders leader.bare s.bare
      = (self.orderLeaders leader s).map (List.map Certificate.bare) := by
  unfold orderLeaders
  rw [Certificate.round_bare]
  split
  · rfl
  · show (self.orderLeadersLoop s.dag.bare
      (Walk.downBy2 (s.lastCommittedRound + 2) (leader.round - 2)) leader.bare >>= fun l => pure _)
        = Except.map _ (self.orderLeadersLoop s.dag
          (Walk.downBy2 (s.lastCommittedRound + 2) (leader.round - 2)) leader >>= fun l => pure _)
    rw [orderLeadersLoop_bare]
    cases self.orderLeadersLoop s.dag
      (Walk.downBy2 (s.lastCommittedRound + 2) (leader.round - 2)) leader <;> rfl

theorem support_bare (dag : Dag) (round : ℕ) (d : Digest) :
    self.support dag.bare round d = self.support dag round d := by
  unfold support
  rw [Dag.lookup_bare]
  cases dag.lookup round with
  | none => rfl
  | some authorities =>
      dsimp only [Option.map_some]
      rw [AList.values_mapValues, List.filter_map, List.map_map]
      rfl

theorem leadersToCommit_bare (s : State) (round : ℕ) :
    self.leadersToCommit s.bare round
      = (self.leadersToCommit s round).map (List.map Certificate.bare) := by
  unfold leadersToCommit
  dsimp only
  split
  · rfl
  · split
    · rfl
    · show (if round - 1 - 2 ≤ s.lastCommittedRound then _ else _) = _
      split
      · rfl
      · rw [show s.bare.dag = s.dag.bare from rfl, leader_bare]
        cases self.leader (round - 1 - 2) s.dag with
        | error e => rfl
        | ok o =>
            cases o with
            | none => rfl
            | some x =>
                obtain ⟨d, leader⟩ := x
                show (self.support s.dag.bare (round - 1 - 1) d >>= fun stake => _) = Except.map _
                  (self.support s.dag (round - 1 - 1) d >>= fun stake => _)
                rw [support_bare]
                cases self.support s.dag (round - 1 - 1) d with
                | error e => rfl
                | ok stake =>
                    show (if stake < self.committee.validityThreshold then pure []
                      else self.orderLeaders leader.bare s.bare >>= fun l => pure l.reverse)
                        = Except.map _ (if stake < self.committee.validityThreshold then pure []
                          else self.orderLeaders leader s >>= fun l => pure l.reverse)
                    split
                    · rfl
                    · rw [orderLeaders_bare]
                      cases self.orderLeaders leader s with
                      | error e => rfl
                      | ok l =>
                          show Except.ok (l.map Certificate.bare).reverse
                            = Except.ok (l.reverse.map Certificate.bare)
                          rw [List.map_reverse]

variable [Crypto]

theorem orderDag_bare (leader : Certificate) (s : State) :
    self.orderDag leader.bare s.bare = (self.orderDag leader s).map (List.map Certificate.bare) := by
  have hkey : ∀ x, (bareEntry x).1 = x.1 := fun _ => rfl
  have hsearch := Search.search_map hkey s.nextParents_bare Panic.outOfFuel (s.dag.size + 2)
    [(leader.digest, leader)] ∅
  unfold orderDag
  rw [show s.bare.dag = s.dag.bare from rfl, Dag.size_bare, Certificate.digest_bare]
  rw [show [(leader.digest, leader.bare)] = [(leader.digest, leader)].map bareEntry from rfl, hsearch]
  cases Search.search Panic.outOfFuel Prod.fst s.nextParents (s.dag.size + 2)
    [(leader.digest, leader)] ∅ with
  | error e => rfl
  | ok out =>
      show Except.ok (List.insertionSort _ (List.filter _ ((out.map bareEntry).map Prod.snd)))
        = Except.ok (List.map Certificate.bare (List.insertionSort _ (List.filter _ _)))
      have hmap : (out.map bareEntry).map Prod.snd = (out.map Prod.snd).map Certificate.bare := by
        rw [List.map_map, List.map_map]
        rfl
      rw [hmap, List.filter_map]
      exact congrArg Except.ok
        (List.map_insertionSort _ _ Certificate.bare _ fun _ _ _ _ => Iff.rfl).symm

/-! ## §4. Runs. -/

end Consensus

/-- A batch of bare certificates. -/
def CommittedSubDag.bare (b : CommittedSubDag) : CommittedSubDag :=
  { b with certificates := b.certificates.map Certificate.bare }

/-- A task that only saw bare certificates. -/
def Node.bare (n : Node) : Node :=
  { n with
    state := n.state.bare
    pending := n.pending.map Certificate.bare
    feedback := n.feedback.map Certificate.bare
    output := n.output.map CommittedSubDag.bare }

def Action.bare : Action → Action
  | .receive c => .receive c.bare
  | .commit => .commit

namespace Consensus

variable [Crypto] {self : Consensus} {es : History} {n n' : Node}

theorem receive_of_error {c : Certificate} {e : Panic}
    (h : self.leadersToCommit (inserted n.state c) c.round = .error e) :
    self.receive n c = { n with state := inserted n.state c, panic := some e } := by
  unfold inserted at h
  simp only [receive, h]
  rfl

theorem receive_of_ok {c : Certificate} {leaders : List Certificate}
    (h : self.leadersToCommit (inserted n.state c) c.round = .ok leaders) :
    self.receive n c = { n with state := inserted n.state c, pending := leaders } := by
  unfold inserted at h
  simp only [receive, h]
  rfl

theorem receive_bare (n : Node) (c : Certificate) :
    (self.receive n c).bare = self.receive n.bare c.bare := by
  have hstate : (inserted n.state c).bare = inserted n.bare.state c.bare := by
    unfold inserted State.bare
    dsimp only
    rw [Dag.add_bare]
    rfl
  have hleaders := @leadersToCommit_bare self (inserted n.state c) c.round
  rw [hstate] at hleaders
  cases h : self.leadersToCommit (inserted n.state c) c.round with
  | error e =>
      rw [h] at hleaders
      rw [receive_of_error h, receive_of_error hleaders, ← hstate]
      rfl
  | ok leaders =>
      rw [h] at hleaders
      rw [receive_of_ok h, receive_of_ok hleaders, ← hstate]
      rfl

theorem emit_bare (n : Node) (leader : Certificate) (rest batch : List Certificate) :
    (self.emit n leader rest batch).bare
      = self.emit n.bare leader.bare (rest.map Certificate.bare) (batch.map Certificate.bare) := by
  unfold emit Node.bare
  dsimp only
  rw [State.updateAll_bare, List.map_append, List.map_append]
  rfl

theorem commit_bare (n : Node) (leader : Certificate) (rest : List Certificate) :
    (self.commit n leader rest).bare
      = self.commit n.bare leader.bare (rest.map Certificate.bare) := by
  have horder := @orderDag_bare self _ leader n.state
  unfold commit
  rw [show n.bare.state = n.state.bare from rfl, horder]
  cases self.orderDag leader n.state with
  | error e => rfl
  | ok batch =>
      cases batch with
      | nil => rfl
      | cons c batch => exact emit_bare n leader rest (c :: batch)

theorem next_bare {a : Action} (h : self.next n a = some n') :
    self.next n.bare a.bare = some n'.bare := by
  cases a with
  | receive c =>
      obtain ⟨hpanic, hpending, rfl⟩ := next_receive h
      rw [receive_bare]
      refine if_pos ⟨hpanic, ?_⟩
      show n.pending.map _ = []
      rw [hpending]
      rfl
  | commit =>
      obtain ⟨leader, rest, hpanic, hpending, rfl⟩ := next_commit h
      have hbare : n.bare.pending = leader.bare :: rest.map Certificate.bare := by
        show n.pending.map _ = _
        rw [hpending]
        rfl
      have hlive : n.bare.panic = none := hpanic
      rw [commit_bare]
      show self.next n.bare .commit = _
      simp only [next, hlive, hbare]

/-- A history with bare certificates. -/
def bareHistory (es : History) : History := es.map (fun e => (e.1.bare, e.2.bare))

/-- **A run without votes and signatures** is a run. -/
theorem Run.bare (hrun : self.Run es n) : self.Run (bareHistory es) n.bare := by
  induction hrun with
  | init =>
      have hstart : (self.start).bare = self.start := by
        unfold start Node.bare
        dsimp only
        rw [State.new_bare]
        rfl
      show self.Run [] (self.start).bare
      rw [hstart]
      exact .init
  | step _ hnext ih => exact .step ih (next_bare hnext)

omit [Crypto] in
theorem delivered_bareHistory (es : History) :
    delivered (bareHistory es) = (delivered es).map Certificate.bare := by
  induction es with
  | nil => rfl
  | cons e es ih =>
      obtain ⟨n, a⟩ := e
      cases a with
      | receive c => exact congrArg (c.bare :: ·) ih
      | commit => exact ih

/-- **Votes and signatures are not read**: two runs that take the same certificates in the same
order, up to votes and the signatures of headers, end alike up to these: the same leaders and
batches are committed, the same memory is kept, and they panic alike. -/
theorem votes_not_read {es' : History} (hrun : self.Run es n) (hrun' : self.Run es' n')
    (h : es.map (fun e => e.2.bare) = es'.map (fun e => e.2.bare)) : n.bare = n'.bare := by
  refine System.Run.eq_of_labels (Run.bare hrun) (Run.bare hrun') ?_
  unfold bareHistory
  rw [List.map_map, List.map_map]
  exact h

/-- The actions of a run over the DAG of the examples, with one vote on each certificate. -/
def votedActions (votes : List (PublicKey × Signature)) : List Action :=
  sampleBase.map (fun c => .receive { c with votes }) ++ [.commit]

omit [Crypto] in
set_option maxRecDepth 10000 in
theorem exists_votedRun :
    letI := sampleCrypto
    ∀ votes ∈ [[], [(sampleKey 0, Signature.default)]], ∃ es n, sampleTask.Run es n ∧
      es.map Prod.snd = (votedActions votes).reverse ∧
      n.output.map digestsOf = [firstBatch] ∧ ∀ c ∈ emitted n, c.votes = votes := by
  let _ := sampleCrypto
  intro votes hvotes
  obtain ⟨es, n, hrun, hlabels, hcheck⟩ := System.exec_check_labels sampleTask.system
    (votedActions votes) (fun n => decide (n.output.map digestsOf = [firstBatch] ∧
      ∀ c ∈ emitted n, c.votes = votes)) (by
        obtain rfl | hone := List.mem_cons.mp hvotes
        · decide +kernel
        · rw [List.mem_singleton.mp hone]
          decide +kernel)
  obtain ⟨hbatches, hemitted⟩ := of_decide_eq_true hcheck
  exact ⟨es, n, hrun, hlabels, hbatches, hemitted⟩

omit [Crypto] in
/-- The first batch is committed, with and without votes on its certificates. -/
theorem votes_not_read_sample :
    letI := sampleCrypto
    ∃ es n es' n', sampleTask.Run es n ∧ sampleTask.Run es' n' ∧
      n.output.map digestsOf = [firstBatch] ∧ (∀ c ∈ emitted n, c.votes = []) ∧
      (∀ c ∈ emitted n', c.votes = [(sampleKey 0, Signature.default)]) ∧ n.bare = n'.bare := by
  let _ := sampleCrypto
  obtain ⟨es, n, hrun, hlabels, hbatches, hvotes⟩ := exists_votedRun [] List.mem_cons_self
  obtain ⟨es', n', hrun', hlabels', _, hvotes'⟩ :=
    exists_votedRun _ (List.mem_cons_of_mem _ List.mem_cons_self)
  refine ⟨es, n, es', n', hrun, hrun', hbatches, hvotes, hvotes', votes_not_read hrun hrun' ?_⟩
  have hbare : ∀ fs : History, fs.map (fun e => e.2.bare) = (fs.map Prod.snd).map Action.bare := by
    intro fs
    rw [List.map_map]
    rfl
  rw [hbare, hbare, hlabels, hlabels', List.map_reverse, List.map_reverse]
  unfold votedActions
  rw [List.map_append, List.map_append, List.map_map, List.map_map]
  rfl

end Consensus

end Mrv
