import Lazarus.Nta.Apply

/-! The catalog of the bodies committed to, and the list that is taken of it: unconfirmed bodies that are valid
on the old coins, share no input and fit together beside the coinbase. -/

namespace Lazarus.Nta

variable {D : Digests} {chain : Chain} {block : Block} {t : Tx}

section Catalog

variable {cat : List Tx × List Reason} {bodies : List Tx}

private theorem find?_txid (prev : Tx) (found : cat.1.find? (fun prev => prev.txid == t.txid) = some prev) :
    prev ∈ cat.1 ∧ prev.txid = t.txid :=
  ⟨List.mem_of_find?_eq_some found, by simpa using List.find?_some found⟩

private theorem addBody_cases (cat : List Tx × List Reason) (t : Tx) :
    (addBody cat t).1 = cat.1 ∨ (addBody cat t).1 = cat.1 ++ [t] ∧ t.txid ∉ cat.1.map Tx.txid := by
  rw [addBody]
  cases found : cat.1.find? fun prev => prev.txid == t.txid with
  | some prev =>
    dsimp only
    split_ifs <;> exact .inl rfl
  | none => exact .inr ⟨rfl, by simpa [List.find?_eq_none] using found⟩

private theorem addBody_fold (cat : List Tx × List Reason) (distinct : (cat.1.map Tx.txid).Nodup) :
    ((bodies.foldl addBody cat).1.map Tx.txid).Nodup ∧ ∀ t ∈ (bodies.foldl addBody cat).1, t ∈ cat.1 ∨
      t ∈ bodies := by
  induction bodies generalizing cat with
  | nil => exact ⟨distinct, fun t member => .inl member⟩
  | cons first rest ih =>
    rw [List.foldl_cons]
    cases addBody_cases cat first with
    | inl skipped =>
      obtain ⟨apart, origin⟩ := ih (addBody cat first) (skipped ▸ distinct)
      refine ⟨apart, fun t member => ?_⟩
      cases origin t member with
      | inl old => exact .inl (skipped ▸ old)
      | inr later => exact .inr (List.mem_cons_of_mem _ later)
    | inr added =>
      obtain ⟨grown, fresh⟩ := added
      obtain ⟨apart, origin⟩ := ih (addBody cat first) (by
        rw [grown, List.map_append, List.map_singleton, List.nodup_append_comm]
        exact List.nodup_cons.mpr ⟨fresh, distinct⟩)
      refine ⟨apart, fun t member => ?_⟩
      cases origin t member with
      | inl kept =>
        cases List.mem_append.mp (grown ▸ kept) with
        | inl old => exact .inl old
        | inr new => exact .inr (List.mem_singleton.mp new ▸ List.mem_cons_self)
      | inr later => exact .inr (List.mem_cons_of_mem _ later)

/-- Bodies whose ids are their own never conflict. -/
theorem addBody_fold_clear (cat : List Tx × List Reason)
    (injective : ∀ s p s' p', D.txid s p = D.txid s' p' → s = s' ∧ p = p')
    (kept : ∀ t ∈ cat.1, txIdOk D t) (added : ∀ t ∈ bodies, txIdOk D t) (clear : cat.2 = []) :
    (bodies.foldl addBody cat).2 = [] := by
  induction bodies generalizing cat with
  | nil => exact clear
  | cons first rest ih =>
    obtain ⟨here, added⟩ := List.forall_mem_cons.mp added
    rw [List.foldl_cons, addBody]
    cases found : cat.1.find? fun prev => prev.txid == first.txid with
    | some prev =>
      obtain ⟨member, sameId⟩ := find?_txid prev found
      have prevId : prev.txid = D.txid prev.spends prev.pays := by simpa [txIdOk] using kept prev member
      have firstId : first.txid = D.txid first.spends first.pays := by simpa [txIdOk] using here
      have same : txKey prev = txKey first :=
        txKey_eq_iff.mpr ⟨sameId, injective _ _ _ _ (prevId.symm.trans (sameId.trans firstId))⟩
      dsimp only
      rw [if_neg (not_not.mpr same)]
      exact ih cat kept added clear
    | none =>
      refine ih (cat.1 ++ [first], cat.2) (fun t member => ?_) added clear
      cases List.mem_append.mp member with
      | inl old => exact kept t old
      | inr new => exact List.mem_singleton.mp new ▸ here

/-- The catalog in the order in which its bodies are taken. -/
def ordered (chain : Chain) (block : Block) : List Tx :=
  (ilCatalog chain block).1.insertionSort fun a b => a.txid ≤ b.txid

theorem mem_ordered : t ∈ ordered chain block ↔ t ∈ (ilCatalog chain block).1 := List.mem_insertionSort _

theorem ordered_nodup : ((ordered chain block).map Tx.txid).Nodup :=
  ((List.perm_insertionSort _ _).map Tx.txid).nodup_iff.mpr (addBody_fold ([], []) List.nodup_nil).1

theorem mem_committed (listed : t ∈ ordered chain block) : t ∈ committed chain block :=
  ((addBody_fold ([], []) List.nodup_nil).2 t (mem_ordered.mp listed)).resolve_left List.not_mem_nil

end Catalog

section Selection

/-- What the mandatory list is built up from, before the first body. -/
def startSelection (block : Block) : Selection := { weight := coinbaseWeight block }

theorem feasibleIl_eq : feasibleIl chain block = if (ilCatalog chain block).2 ≠ [] then [] else
    ((ordered chain block).foldl (select chain) (startSelection block)).taken := rfl

/-- What holds of a selection at every body: it is a part of what was gone through, each body is unconfirmed,
valid and free of the inputs of the others, and the whole fits. -/
structure Taken (chain : Chain) (start : Int) (gone : List Tx) (s : Selection) : Prop where
  part : s.taken.Sublist gone
  unconfirmed : ∀ t ∈ s.taken, txKey t ∉ chain.confirmed
  valid : ∀ t ∈ s.taken, txValidAgainst chain.utxo t
  used : s.usedInputs = s.taken.flatMap Tx.spends
  apart : s.taken.Pairwise fun a b => ∀ op ∈ b.spends, op ∉ a.spends
  weight : s.weight = start + (s.taken.map txWeight).sum
  fits : s.taken ≠ [] → s.weight ≤ chain.maxWeight

variable {start : Int} {gone bodies : List Tx} {s : Selection}

theorem Taken.skip (sound : Taken chain start gone s) (t : Tx) : Taken chain start (gone ++ [t]) s :=
  { sound with part := sound.part.trans (List.sublist_append_left _ _) }

theorem Taken.select (sound : Taken chain start gone s) (t : Tx) : Taken chain start
    (gone ++ [t]) (select chain s t) := by
  rw [Nta.select]
  split_ifs with confirmed invalid conflict heavy
  · exact sound.skip t
  · exact sound.skip t
  · exact sound.skip t
  · exact sound.skip t
  · refine ⟨sound.part.append_right _, fun other member => ?_, fun other member => ?_,
      ?_, ?_, ?_, fun _ => not_lt.mp heavy⟩
    · cases List.mem_append.mp member with
      | inl old => exact sound.unconfirmed other old
      | inr new => exact List.mem_singleton.mp new ▸ confirmed
    · cases List.mem_append.mp member with
      | inl old => exact sound.valid other old
      | inr new => simpa [List.mem_singleton.mp new] using invalid
    · rw [List.flatMap_append, ← sound.used]
      simp
    · refine List.pairwise_append.mpr
        ⟨sound.apart, List.pairwise_singleton _ _, fun a member b new op spent shared => ?_⟩
      have taken : op ∈ s.usedInputs := sound.used ▸ List.mem_flatMap.mpr ⟨a, member, shared⟩
      rw [List.mem_singleton.mp new] at spent
      exact conflict (List.any_eq_true.mpr ⟨op, spent, decide_eq_true taken⟩)
    · dsimp only
      rw [List.map_append, List.sum_append, sound.weight]
      simp
      omega

theorem Taken.fold (sound : Taken chain start gone s) (bodies : List Tx) :
    Taken chain start (gone ++ bodies) (bodies.foldl (Nta.select chain) s) := by
  induction bodies generalizing s gone with
  | nil => rwa [List.append_nil]
  | cons first rest ih =>
    rw [List.append_cons]
    exact ih (sound.select first)

theorem taken_start (chain : Chain) (block : Block) : Taken chain (coinbaseWeight block)
    [] (startSelection block) where
  part := List.Sublist.refl _
  unconfirmed := nofun
  valid := nofun
  used := rfl
  apart := List.Pairwise.nil
  weight := (add_zero _).symm
  fits := fun some => absurd rfl some

/-- The mandatory list, where the bodies do not conflict. -/
theorem feasibleIl_taken (clear : (ilCatalog chain block).2 = []) :
    ∃ s : Selection, feasibleIl chain block = s.taken ∧
    Taken chain (coinbaseWeight block) (ordered chain block) s := by
  rw [feasibleIl_eq, if_neg (not_not.mpr clear)]
  exact ⟨_, rfl, (taken_start chain block).fold _⟩

end Selection

end Lazarus.Nta
