import MergeMiningMonitor.ParentClassifier.Core

/-!
# Parent classifier — Policies

The strict and the lenient policy, compared over any answers of Core.

Every function of the classifier does the same under both, except where a lookup fails for good: there
the strict one fails, and the lenient one returns a verdict that is marked incomplete (`Tolerates`).
Under either policy, a lookup that failed leaves a verdict without an attested absence (`Keeps`).

`policies_agree` puts the two together.
-/

namespace MergeMiningMonitor.ParentClassifier

open Sessions

variable {σ Hash α : Type} {source : Source σ Hash}

/-! ### Agreement -/

theorem tolerates_giveUp {G : α → Prop} {e : RpcError} {a : α} (h : G a) :
    Tolerates G (giveUp true e a : Classify σ α) (giveUp false e a) :=
  Tolerates.gives_up (ClassifyError.rpc e) h

theorem tolerates_fetchCompetitor (height : Int) :
    Tolerates (· = .unavailable) (fetchCompetitor source height true)
      (fetchCompetitor source height false) := by
  unfold fetchCompetitor
  split
  · exact .refl _
  · refine .after _ fun answer => ?_
    rcases answer with e | hash
    · cases e with
      | notFound | outOfRange => exact .refl _
      | pruned | other => exact tolerates_giveUp rfl
    · refine .after _ fun answer => ?_
      rcases answer with e | header
      · cases e with
        | notFound => exact .refl _
        | outOfRange | pruned | other => exact tolerates_giveUp rfl
      · exact .refl _

variable [DecidableEq Hash] {blockHash : Header Hash → Hash}

theorem tolerates_mtpAncestors (candidate : Header Hash) (n : Nat) :
    ∀ (expected : Hash) (times : List Nat),
      Tolerates (· = .unavailable) (mtpAncestors source blockHash candidate true n expected times)
        (mtpAncestors source blockHash candidate false n expected times) := by
  induction n with
  | zero => exact fun _ _ => .refl _
  | succ n ih =>
    intro expected times
    refine .after _ fun answer => ?_
    rcases answer with e | ancestor
    · cases e with
      | notFound => exact .refl _
      | outOfRange | pruned | other => exact tolerates_giveUp rfl
    · dsimp only
      split
      · exact ih _ _
      · exact .refl _

/-- The lenient verdict is marked incomplete. -/
abbrev GaveUp (verdict : Verdict Hash) : Prop := verdict.incomplete = true

theorem tolerates_classifyInferredStale (header : Header Hash) (prevHeight : Int)
    (predecessor : Option (ClassifiedHeader Hash)) (prevKind : BlockKind) :
    Tolerates GaveUp
      (classifyInferredStale source blockHash header prevHeight predecessor prevKind true)
      (classifyInferredStale source blockHash header prevHeight predecessor prevKind false) := by
  unfold classifyInferredStale
  split
  · exact .refl _
  · refine (tolerates_fetchCompetitor _).bind (fun competitor => ?_) ?_
    · cases competitor with
      | absent | unavailable => exact .refl _
      | found competitor =>
        dsimp only
        split
        · refine (tolerates_mtpAncestors header mtpWindow _ []).bind (fun _ => .refl _) ?_
          rintro _ rfl
          exact ⟨.incompleteUnknown header, rfl, rfl⟩
        · exact .refl _
    · rintro _ rfl
      exact ⟨.incompleteUnknown header, rfl, rfl⟩

omit [DecidableEq Hash] in
theorem tolerates_classifyInvalidBlockChild (header : Header Hash) (prevHeight : Int) :
    Tolerates GaveUp (classifyInvalidBlockChild source header prevHeight true)
      (classifyInvalidBlockChild source header prevHeight false) := by
  unfold classifyInvalidBlockChild
  split
  · exact .refl _
  · refine (tolerates_fetchCompetitor _).bind (fun _ => .refl _) ?_
    rintro _ rfl
    exact ⟨.incompleteUnknown header, rfl, rfl⟩

theorem tolerates_classifyByPredecessor (header : Header Hash) :
    Tolerates GaveUp (classifyByPredecessor source blockHash header true)
      (classifyByPredecessor source blockHash header false) := by
  refine .after _ fun answer => ?_
  rcases answer with e | prev
  · cases e with
    | notFound => exact .refl _
    | outOfRange | pruned | other => exact tolerates_giveUp rfl
  · dsimp only
    split
    · exact .refl _
    · split
      · exact .refl _
      · refine .after _ fun answer => ?_
        rcases answer with e | predecessor
        · exact tolerates_giveUp rfl
        · exact tolerates_classifyInferredStale _ _ _ _

theorem tolerates_classifyCoreUnknown (header : Header Hash) (preflight : ParentPreflight) :
    Tolerates GaveUp (classifyCoreUnknown source blockHash header preflight true)
      (classifyCoreUnknown source blockHash header preflight false) := by
  unfold classifyCoreUnknown
  split
  · exact tolerates_classifyInferredStale _ _ _ _
  · exact tolerates_classifyInferredStale _ _ _ _
  · exact tolerates_classifyInvalidBlockChild _ _
  · exact tolerates_classifyByPredecessor _

theorem tolerates_classifyIndexed (header : Header Hash) (status : CoreHeaderStatus) :
    Tolerates GaveUp (classifyIndexed source blockHash header status true)
      (classifyIndexed source blockHash header status false) := by
  unfold classifyIndexed
  split
  · exact .refl _
  · refine .after _ fun fetched => ?_
    dsimp only
    split
    · exact .refl _
    · refine (tolerates_fetchCompetitor _).bind (fun _ => .refl _) ?_
      rintro _ rfl
      exact ⟨.incompleteUnknown header, rfl, rfl⟩

theorem tolerates_classifyParent (header : Header Hash) (preflight : Option ParentPreflight) :
    Tolerates GaveUp (classifyParent source blockHash header preflight true)
      (classifyParent source blockHash header preflight false) := by
  refine .after _ fun answer => ?_
  rcases answer with e | status
  · cases e with
    | notFound =>
      cases preflight with
      | none => exact .refl _
      | some preflight => exact tolerates_classifyCoreUnknown _ _
    | outOfRange | pruned | other => exact tolerates_giveUp rfl
  · exact tolerates_classifyIndexed _ _

/-! ### Absence -/

/-- Every lookup of a header or a height was answered. -/
def Clean (c : Connection σ) : Prop := ∀ l ∈ c.lookups, l.request ≠ .coinbase → l.Answered

/-- The lookup failed for good. -/
def Failed (answer : Except RpcError α) : Prop :=
  answer = .error .pruned ∨ answer = .error .other

theorem answered_or_failed (request : Request) (answer : Except RpcError α) :
    Lookup.Answered ⟨request, errorOf answer⟩ ∨ Failed answer := by
  rcases answer with e | a
  · cases e with
    | notFound => exact .inl (.inr (.inl rfl))
    | outOfRange => exact .inl (.inr (.inr rfl))
    | pruned => exact .inr (.inl rfl)
    | other => exact .inr (.inr rfl)
  · exact .inl (.inl rfl)

theorem clean_append {c : Connection σ} {core : σ} {l : Lookup} (h : Clean c)
    (hl : l.request ≠ .coinbase → l.Answered) : Clean ⟨core, c.lookups ++ [l]⟩ := by
  intro l' hl'
  rcases List.mem_append.mp hl' with hold | hnew
  · exact h l' hold
  · rwa [List.mem_singleton.mp hnew]

theorem keeps_ask (request : Request) (call : σ → Except RpcError α × σ) :
    Keeps Clean Failed (ask request call) := by
  rintro c a c' hc h
  obtain ⟨rfl, rfl⟩ := Prod.mk.inj (Except.ok.inj h)
  exact (answered_or_failed request _).imp_left fun hanswered => clean_append hc fun _ => hanswered

omit [DecidableEq Hash] in
theorem keeps_fetchCoinbase {G : CoinbaseFetch → Prop} (hash : Hash) :
    Keeps Clean G (fetchCoinbase source hash) := by
  intro c a c' hc h
  obtain ⟨answer, t, hask, hpure⟩ := run_bind.mp h
  obtain ⟨-, rfl⟩ := run_pure.mp hpure
  obtain ⟨-, rfl⟩ := Prod.mk.inj (Except.ok.inj hask)
  exact .inl (clean_append hc fun hne => absurd rfl hne)

theorem keeps_giveUp {I : Connection σ → Prop} {G : α → Prop} {strict : Bool} {e : RpcError} {a : α} :
    Keeps I G (giveUp strict e a) := by
  unfold giveUp
  split
  · exact .throw _
  · exact .pure _

theorem giveUp_eq_ok {strict : Bool} {e : RpcError} {a b : α} {c c' : Connection σ}
    (h : giveUp strict e a c = .ok (b, c')) : b = a := by
  unfold giveUp at h
  split at h
  · cases h
  · exact (run_pure.mp h).1.symm

omit [DecidableEq Hash] in
theorem keeps_getHeader (hash : Hash) (height : Int) :
    Keeps Clean Failed (getHeader source hash height) := by
  refine (keeps_ask _ _).bind (fun answer => ?_) ?_
  · rcases answer with e | header
    · exact .pure _
    · exact (keeps_fetchCoinbase (G := fun _ => False) hash).bind (fun _ => .pure _) fun _ h => h.elim
  · rintro _ (rfl | rfl) c b c' h
    · exact .inl (run_pure.mp h).1.symm
    · exact .inr (run_pure.mp h).1.symm

omit [DecidableEq Hash] in
theorem keeps_fetchCompetitor (height : Int) (strict : Bool) :
    Keeps Clean (· = .unavailable) (fetchCompetitor source height strict) := by
  unfold fetchCompetitor
  split
  · exact .pure _
  · refine (keeps_ask _ _).bind (fun answer => ?_) ?_
    · rcases answer with e | hash
      · cases e with
        | notFound | outOfRange => exact .pure _
        | pruned | other => exact keeps_giveUp
      · refine (keeps_getHeader _ _).bind (fun answer => ?_) ?_
        · rcases answer with e | header
          · cases e with
            | notFound => exact .pure _
            | outOfRange | pruned | other => exact keeps_giveUp
          · exact .pure _
        · rintro _ (rfl | rfl) c b c' h
          · exact giveUp_eq_ok h
          · exact giveUp_eq_ok h
    · rintro _ (rfl | rfl) c b c' h
      · exact giveUp_eq_ok h
      · exact giveUp_eq_ok h

/-- The verdict attests no absence. -/
abbrev Silent (verdict : Verdict Hash) : Prop := verdict.coreAbsenceAttested = false

omit [DecidableEq Hash] in
theorem silent_pure {verdict v : Verdict Hash} {c c' : Connection σ} (hsilent : Silent verdict)
    (h : (pure verdict : Classify σ (Verdict Hash)) c = .ok (v, c')) : Silent v := by
  obtain ⟨rfl, -⟩ := run_pure.mp h
  exact hsilent

omit [DecidableEq Hash] in
theorem silent_giveUp {strict : Bool} {e : RpcError} {header : Header Hash} {v : Verdict Hash}
    {c c' : Connection σ} (h : giveUp strict e (.incompleteUnknown header) c = .ok (v, c')) :
    Silent v := by
  rw [giveUp_eq_ok h]
  rfl

omit [DecidableEq Hash] in
theorem silent_inferredStaleWithCompetitor (header : Header Hash) (height : Int)
    (predecessor : Option (ClassifiedHeader Hash)) (prevKind : BlockKind)
    (competitor : Option (ClassifiedHeader Hash)) :
    Silent (classifyInferredStaleWithCompetitor header height predecessor prevKind competitor) := by
  unfold classifyInferredStaleWithCompetitor
  split
  · rfl
  · split <;> rfl

theorem silent_coreStaleHeader (blockHash : Header Hash → Hash) (header : Header Hash)
    (height : Int) (competitor : Option (ClassifiedHeader Hash))
    (coinbase : Option BlockCoinbase) :
    Silent (classifyCoreStaleHeader blockHash header height competitor coinbase) := by
  unfold classifyCoreStaleHeader
  split
  · rfl
  · split <;> rfl

theorem keeps_classifyInferredStale (header : Header Hash) (prevHeight : Int)
    (predecessor : Option (ClassifiedHeader Hash)) (prevKind : BlockKind) (strict : Bool) :
    Keeps Clean Silent
      (classifyInferredStale source blockHash header prevHeight predecessor prevKind strict) := by
  unfold classifyInferredStale
  split
  · exact .pure _
  · refine (keeps_fetchCompetitor _ strict).bind (fun competitor => ?_) ?_
    · cases competitor with
      | absent | unavailable => exact .pure _
      | found competitor =>
        dsimp only
        split
        · -- On a found competitor no verdict attests an absence, so the lookups of the ancestors
          -- may fail.
          refine .of_forall fun c v c' h => ?_
          obtain ⟨check, t, -, hv⟩ := run_bind.mp h
          split at hv
          · exact silent_pure (silent_inferredStaleWithCompetitor ..) hv
          · exact silent_pure rfl hv
          · exact silent_pure rfl hv
          · exact silent_pure rfl hv
        · exact .pure _
    · rintro _ rfl c v c' h
      exact silent_pure rfl h

omit [DecidableEq Hash] in
theorem keeps_classifyInvalidBlockChild (header : Header Hash) (prevHeight : Int) (strict : Bool) :
    Keeps Clean Silent (classifyInvalidBlockChild source header prevHeight strict) := by
  unfold classifyInvalidBlockChild
  split
  · exact .pure _
  · refine (keeps_fetchCompetitor _ strict).bind (fun competitor => ?_) ?_
    · cases competitor with
      | absent | unavailable => exact .pure _
      | found competitor =>
        dsimp only
        split <;> exact .pure _
    · rintro _ rfl c v c' h
      exact silent_pure rfl h

theorem keeps_classifyByPredecessor (header : Header Hash) (strict : Bool) :
    Keeps Clean Silent (classifyByPredecessor source blockHash header strict) := by
  refine (keeps_ask _ _).bind (fun answer => ?_) ?_
  · rcases answer with e | prev
    · cases e with
      | notFound => exact .pure _
      | outOfRange | pruned | other => exact keeps_giveUp
    · dsimp only
      split
      · exact .pure _
      · split
        · exact .pure _
        · refine (keeps_getHeader _ _).bind (fun answer => ?_) ?_
          · rcases answer with e | predecessor
            · exact keeps_giveUp
            · exact keeps_classifyInferredStale _ _ _ _ _
          · rintro _ (rfl | rfl) c v c' h
            · exact silent_giveUp h
            · exact silent_giveUp h
  · rintro _ (rfl | rfl) c v c' h
    · exact silent_giveUp h
    · exact silent_giveUp h

theorem keeps_classifyCoreUnknown (header : Header Hash) (preflight : ParentPreflight)
    (strict : Bool) :
    Keeps Clean Silent (classifyCoreUnknown source blockHash header preflight strict) := by
  unfold classifyCoreUnknown
  split
  · exact keeps_classifyInferredStale _ _ _ _ _
  · exact keeps_classifyInferredStale _ _ _ _ _
  · exact keeps_classifyInvalidBlockChild _ _ _
  · exact keeps_classifyByPredecessor _ _

theorem silent_classifyIndexed {header : Header Hash} {status : CoreHeaderStatus} {strict : Bool}
    {c c' : Connection σ} {v : Verdict Hash}
    (h : classifyIndexed source blockHash header status strict c = .ok (v, c')) : Silent v := by
  rw [classifyIndexed] at h
  cases hheight : coreHeightToI32 status.height with
  | none =>
    rw [hheight] at h
    exact silent_pure rfl h
  | some height =>
    rw [hheight] at h
    obtain ⟨fetched, t, -, hv⟩ := run_bind.mp h
    split at hv
    · exact silent_pure rfl hv
    · obtain ⟨competitor, u, -, hv⟩ := run_bind.mp hv
      split at hv
      · exact silent_pure rfl hv
      · obtain ⟨rfl, -⟩ := run_pure.mp hv
        exact silent_coreStaleHeader blockHash header height none fetched.coinbase
      · obtain ⟨rfl, -⟩ := run_pure.mp hv
        exact silent_coreStaleHeader blockHash header height (some _) fetched.coinbase

theorem keeps_classifyParent (header : Header Hash) (preflight : Option ParentPreflight)
    (strict : Bool) : Keeps Clean Silent (classifyParent source blockHash header preflight strict) := by
  refine (keeps_ask _ _).bind (fun answer => ?_) ?_
  · rcases answer with e | status
    · cases e with
      | notFound =>
        cases preflight with
        | none => exact .throw _
        | some preflight => exact keeps_classifyCoreUnknown _ _ _
      | outOfRange | pruned | other => exact keeps_giveUp
    · exact .of_forall fun c v c' h => silent_classifyIndexed h
  · rintro _ (rfl | rfl) c v c' h
    · exact silent_giveUp h
    · exact silent_giveUp h

/-! ### The policies -/

/-- **The policies agree.**  For every header, every preflight and every Core: a verdict of the strict
policy is the lenient policy's verdict too, and a lenient verdict that is not marked incomplete is the
strict one's.  Under either policy an absence is attested only when every lookup of a header or a
height succeeded, or was answered not found or out of range. -/
theorem policies_agree (source : Source σ Hash) (blockHash : Header Hash → Hash)
    (header : Header Hash) (preflight : Option ParentPreflight) (core : σ) :
    (∀ v c, classifyParent source blockHash header preflight true ⟨core, []⟩ = .ok (v, c) →
      classifyParent source blockHash header preflight false ⟨core, []⟩ = .ok (v, c)) ∧
    (∀ v c, classifyParent source blockHash header preflight false ⟨core, []⟩ = .ok (v, c) →
      v.incomplete = false →
      classifyParent source blockHash header preflight true ⟨core, []⟩ = .ok (v, c)) ∧
    ∀ strict v c, classifyParent source blockHash header preflight strict ⟨core, []⟩ = .ok (v, c) →
      v.coreAbsenceAttested = true →
      ∀ l ∈ c.lookups, l.request ≠ .coinbase → l.Answered := by
  have htolerates : Tolerates GaveUp (classifyParent source blockHash header preflight true)
      (classifyParent source blockHash header preflight false) := tolerates_classifyParent _ _
  refine ⟨fun v c h => htolerates.lenient_eq h, fun v c h hcomplete => ?_, ?_⟩
  · refine htolerates.strict_eq h ?_
    rw [GaveUp, hcomplete]
    exact Bool.false_ne_true
  · intro strict v c h habsent
    have hempty : Clean (⟨core, []⟩ : Connection σ) := nofun
    rcases keeps_classifyParent header preflight strict _ v c hempty h with hclean | hsilent
    · exact hclean
    · rw [hsilent] at habsent
      cases habsent

end MergeMiningMonitor.ParentClassifier

namespace MergeMiningMonitor.ParentClassifier.Sample

/-- A Core with a chain of four headers, whose second header cannot be looked up, and with a stale
header beside the third.  A nonce is the hash. -/
def forked : Source Unit Nat where
  getBlockHash n s := (if n < 4 then .ok n else .error .outOfRange, s)
  getBlockHeader h s :=
    (if h = 1 then .error .other
      else if h < 4 then .ok ⟨1, h - 1, 0, 100 + h, 1, h⟩ else .error .notFound, s)
  getBlockHeaderVerbose h s :=
    (if h < 4 then .ok ⟨h, 4 - h⟩ else if h = 40 then .ok ⟨2, -1⟩ else .error .notFound, s)
  getBlockCoinbase _ s := (.error .pruned, s)

def childOf (prev nonce : Nat) : Header Nat := ⟨1, prev, 7, 200, 1, nonce⟩

/-- The strict verdict on the stale header is the lenient one.  A sibling of the second header competes
with it: the strict policy fails, and the lenient verdict is incomplete.  The lenient policy attests the
absence of a child of the stored tip, and all its lookups were answered. -/
theorem policies_agree_forked :
    (∃ v c, classifyParent forked Header.nonce (childOf 1 40) none true ⟨(), []⟩ = .ok (v, c) ∧
      v.kind = .stale ∧ v.canonicalCompetitorHash = some 2) ∧
    (classifyParent forked Header.nonce (childOf 0 50) (some ⟨some ⟨.canonical, some 0⟩⟩) true
        ⟨(), []⟩ = .error (.rpc .other) ∧
      ∃ v c, classifyParent forked Header.nonce (childOf 0 50) (some ⟨some ⟨.canonical, some 0⟩⟩) false
        ⟨(), []⟩ = .ok (v, c) ∧ v.incomplete = true) ∧
    ∃ v c, classifyParent forked Header.nonce (childOf 3 50) (some ⟨some ⟨.canonical, some 3⟩⟩) false
        ⟨(), []⟩ = .ok (v, c) ∧
      v.coreAbsenceAttested = true ∧ ∀ l ∈ c.lookups, l.request ≠ .coinbase → l.Answered := by
  have stale := policies_agree forked Header.nonce (childOf 1 40) none ()
  have child := policies_agree forked Header.nonce (childOf 3 50)
    (some ⟨some ⟨.canonical, some 3⟩⟩) ()
  refine ⟨⟨_, _, stale.2.1 _ _ rfl rfl, rfl, rfl⟩, ⟨rfl, _, _, rfl, rfl⟩, ?_⟩
  exact ⟨_, _, child.1 _ _ rfl, rfl, child.2.2 true _ _ rfl rfl⟩

end MergeMiningMonitor.ParentClassifier.Sample
