import SystemsLab.LockStore.Outline

/-!
# The store holds the result of a serial execution

Consequences of the outline for the values of the store.

* `Installing` — a transaction some of whose writes may have reached the store: it keeps that
  property and is never aborted (`installing_run`).
-/

namespace SystemsLab.LockStore

open Concurrent KeyStore List

/-! ## Commits in progress -/

/-- `txn_commit` has begun to copy and has not set `TXN_COMMITTED` yet. -/
def InCommit : Pc → Prop
  | .copy _ _ | .setCommitted _ => True
  | .releaseCheck _ _ caller | .releaseLock _ _ caller | .releaseOwner _ _ caller
  | .releaseUnlock _ _ caller | .releaseClear _ _ caller => caller = .commit
  | _ => False

variable {th t : Nat} {d : Store} {c : Config Mutex Store Pc}

theorem Releasing.uncommitted {v : Nat} {caller : Caller}
    (h : Releasing th d v caller) (hcaller : caller ≠ .commit) : Uncommitted d v := by
  intro ha
  cases caller with
  | commit => exact absurd rfl hcaller
  | plain => exact absurd ha h.2
  | victim r owner => exact absurd ha h.1.2

theorem Caller.txn_not_mem_held (caller : Caller) (t : Nat) : Mutex.txn t ∉ caller.held := by
  cases caller <;> simp [Caller.held]

/-- Outside a commit, whoever holds `t->mtx` knows that `t` has not committed. -/
theorem At.uncommitted {p : Pc} (hp : At th d p)
    (hheld : Mutex.txn t ∈ held p) (hout : ¬ InCommit p) : Uncommitted d t := by
  have own : ∀ {v : Nat} {caller : Caller}, Mutex.txn t ∈ Mutex.txn v :: caller.held → v = t := by
    intro v caller hmem
    simpa [caller.txn_not_mem_held, eq_comm] using hmem
  cases p with
  | abortCheck v caller => exact own hheld ▸ hp.2.2.2
  | clearEdges v caller | freeWrites v caller => exact own hheld ▸ hp.2.uncommitted hp.1
  | releaseCheck v i caller | releaseClear v i caller =>
    exact own hheld ▸ Releasing.uncommitted hp hout
  | releaseLock v k caller => exact own hheld ▸ hp.1.uncommitted hout
  | releaseOwner v k caller | releaseUnlock v k caller =>
    exact own (mem_of_ne_of_mem (by simp) hheld) ▸ hp.1.uncommitted hout
  | commitCheck v => exact @own v .commit hheld ▸ hp.2
  | copy v rest | setCommitted v => exact absurd trivial hout
  | txnUnlock v caller => exact own hheld ▸ fun ha => absurd ha hp.1.2
  | abortLock v caller => exact absurd hheld (caller.txn_not_mem_held t)
  | _ => simp [held] at hheld

/-- The commit of `t` has begun to copy or is over. -/
def Installing (d : Store) (t : Nat) : Prop :=
  d.copying t = true ∨ Logged d t

theorem Installing.logCommit {u : Nat} (h : Installing d t) (U : Transaction) :
    Installing (d.logCommit u U) t := by
  by_cases htu : t = u
  · exact .inr ⟨⟨u, U.writes⟩, mem_cons_self, htu.symm⟩
  · rcases h with hc | ⟨e, he, hte⟩
    · exact .inl (by simpa [Store.logCommit, htu] using hc)
    · exact .inr ⟨e, mem_cons_of_mem _ he, hte⟩

theorem SameBook.installing {d' : Store} (h : SameBook d d') (ht : Installing d t) :
    Installing d' t := by
  simpa [Installing, Logged, h.copying, h.log] using ht

theorem Acts.installing {d' : Store} {p p' : Pc} (h : Acts th d p d' p') (ht : Installing d t) :
    Installing d' t := by
  cases h with
  | openKey u key value idx => exact (sameBook_openKey d key idx).installing ht
  | addEdge r owner | selfRemoveEdge r owner | removeEdge r owner =>
    exact (sameBook_setEdge d _ _ _).1.installing ht
  | releaseOwner v k caller => exact (sameBook_release d k v).1.installing ht
  | commitEmpty u U hU hactive hw => exact ht.logCommit U
  | commitBegin u U hU hactive hw =>
    refine ht.imp (fun hc => ?_) id
    by_cases htu : t = u <;> simp [Store.beginCopy, htu, hc]
  | copyLast u w U hU =>
    have hcopied : Installing (d.copyEntry w) t := ht
    exact hcopied.logCommit U
  | _ => exact ht

end SystemsLab.LockStore
