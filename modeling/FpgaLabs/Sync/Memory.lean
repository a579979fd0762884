import FpgaLabs.Sync.Ring

/-! Memories, and machines that take reads and writes in, perform them later and
answer the reads later still. The rule says when such a machine is a memory. -/

namespace FpgaLabs.Sync

/-- An operation on a memory; `W` says what a write does to a cell. -/
inductive MemOp (A W : Type)
  | read (a : A)
  | write (a : A) (w : W)

section
variable {A W D : Type} [DecidableEq A] (merge : W → D → D)

/-- The memory after an operation. -/
def MemOp.perform (m : A → D) : MemOp A W → (A → D)
  | .read _ => m
  | .write a w => Function.update m a (merge w (m a))

/-- What it answers. -/
def MemOp.reply (m : A → D) : MemOp A W → List D
  | .read a => [m a]
  | .write _ _ => []

def memAfter (m : A → D) (ops : List (MemOp A W)) : A → D := ops.foldl (MemOp.perform merge) m

/-- What a memory answers to operations, in their order. -/
def replies (m : A → D) : List (MemOp A W) → List D
  | [] => []
  | op :: ops => op.reply m ++ replies (op.perform merge m) ops

@[simp] theorem memAfter_nil (m : A → D) : memAfter merge m ([] : List (MemOp A W)) = m := rfl

@[simp] theorem replies_nil (m : A → D) : replies merge m ([] : List (MemOp A W)) = [] := rfl

@[simp] theorem memAfter_single (m : A → D) (op : MemOp A W) :
    memAfter merge m [op] = op.perform merge m := rfl

@[simp] theorem replies_single (m : A → D) (op : MemOp A W) :
    replies merge m [op] = op.reply m := List.append_nil _

theorem memAfter_append (m : A → D) (ops more : List (MemOp A W)) :
    memAfter merge m (ops ++ more) = memAfter merge (memAfter merge m ops) more :=
  List.foldl_append

theorem replies_append (m : A → D) (ops more : List (MemOp A W)) :
    replies merge m (ops ++ more) =
      replies merge m ops ++ replies merge (memAfter merge m ops) more := by
  induction ops generalizing m with
  | nil => rfl
  | cons op ops ih =>
    rw [List.cons_append, replies, replies, ih, List.append_assoc]
    rfl

/-- A machine with a memory inside. Operations taken in are `waiting` until they
are performed, and answers are in the `pipe` until they are given. -/
structure Serves {S E : Type} (step : S → E → S) (I : S → Prop) (mem : S → A → D)
    (accepted performed : S → E → List (MemOp A W)) (waiting : S → List (MemOp A W))
    (answered : S → E → List D) (pipe : S → List D) : Prop where
  step_inv : ∀ s e, I s → I (step s e)
  step_mem : ∀ s e, I s → mem (step s e) = memAfter merge (mem s) (performed s e)
  step_ops : ∀ s e, I s → waiting s ++ accepted s e = performed s e ++ waiting (step s e)
  step_data : ∀ s e, I s → pipe s ++ replies merge (mem s) (performed s e) =
    answered s e ++ pipe (step s e)

section
variable {S E : Type} {step : S → E → S} {I : S → Prop} {mem : S → A → D}
  {accepted performed : S → E → List (MemOp A W)} {waiting : S → List (MemOp A W)}
  {answered : S → E → List D} {pipe : S → List D} {merge}

/-- Every request is performed, in order, or still waits. -/
theorem Serves.ops (h : Serves merge step I mem accepted performed waiting answered pipe) {s : S}
    (hs : I s) (es : List E) :
    waiting s ++ emitted step accepted s es =
      emitted step performed s es ++ waiting (run step s es) :=
  @conservation S E (MemOp A W) step waiting accepted performed (fun _ _ => True) I
    (fun s e hi _ => ⟨h.step_inv s e hi, h.step_ops s e hi⟩) s es hs
    (eachStep_iff.mpr fun _ _ _ _ => trivial)

/-- What is answered is what a memory answers to the requests performed. -/
theorem Serves.data (h : Serves merge step I mem accepted performed waiting answered pipe) {s : S}
    (hs : I s) (es : List E) :
    pipe s ++ replies merge (mem s) (emitted step performed s es) =
        emitted step answered s es ++ pipe (run step s es) ∧
      mem (run step s es) = memAfter merge (mem s) (emitted step performed s es) := by
  induction es generalizing s with
  | nil => simp [emitted]
  | cons e es ih =>
    obtain ⟨hdata, hmem⟩ := ih (h.step_inv s e hs)
    rw [h.step_mem s e hs] at hdata hmem
    rw [emitted, emitted, run_cons]
    constructor
    · rw [replies_append, ← List.append_assoc, h.step_data s e hs, List.append_assoc, hdata,
        List.append_assoc]
    · rw [memAfter_append, hmem]

/-- The answers given are the first of those of a memory. -/
theorem Serves.answers (h : Serves merge step I mem accepted performed waiting answered pipe)
    {s : S} (hs : I s) (hw : waiting s = []) (hp : pipe s = []) (es : List E) :
    emitted step answered s es <+: replies merge (mem s) (emitted step accepted s es) := by
  have hops := h.ops hs es
  obtain ⟨hdata, _⟩ := h.data hs es
  rw [hw, List.nil_append] at hops
  rw [hp, List.nil_append] at hdata
  rw [hops, replies_append, hdata, List.append_assoc]
  exact List.prefix_append _ _

/-- The contents, once what waits is done, are those of a memory. -/
theorem Serves.contents (h : Serves merge step I mem accepted performed waiting answered pipe)
    {s : S} (hs : I s) (hw : waiting s = []) (es : List E) :
    memAfter merge (mem (Sync.run step s es)) (waiting (Sync.run step s es)) =
      memAfter merge (mem s) (emitted step accepted s es) := by
  have hops := h.ops hs es
  rw [hw, List.nil_append] at hops
  rw [hops, memAfter_append, (h.data hs es).2]

/-- When something waits, something is performed before the rank has run down. -/
theorem Serves.some (h : Serves merge step I mem accepted performed waiting answered pipe)
    {rank : S → Nat} (hrank : ∀ s e, I s → waiting s ≠ [] → performed s e = [] →
      rank (step s e) < rank s) {s : S} (hs : I s) (hw : waiting s ≠ []) {es : List E}
    (hlen : rank s < es.length) : emitted step performed s es ≠ [] := by
  induction es generalizing s with
  | nil => exact absurd hlen (Nat.not_lt_zero _)
  | cons e es ih =>
    intro hnone
    obtain ⟨hfirst, hrest⟩ := List.append_eq_nil_iff.mp hnone
    have hlt := hrank s e hs hw hfirst
    have hops := h.step_ops s e hs
    rw [hfirst, List.nil_append] at hops
    have hw' : waiting (step s e) ≠ [] := by
      rw [← hops]
      exact fun hnil => hw (List.append_eq_nil_iff.mp hnil).1
    rw [List.length_cons] at hlen
    exact ih (h.step_inv s e hs) hw' (by omega) hrest

/-- What waits is performed, one operation in every `B + 1` steps at least. -/
theorem Serves.count (h : Serves merge step I mem accepted performed waiting answered pipe)
    {rank : S → Nat} {B : Nat} (hB : ∀ s, I s → rank s ≤ B)
    (hrank : ∀ s e, I s → waiting s ≠ [] → performed s e = [] → rank (step s e) < rank s)
    {k : Nat} {s : S} (hs : I s) (hk : k ≤ (waiting s).length) {es : List E}
    (hlen : k * (B + 1) ≤ es.length) : k ≤ (emitted step performed s es).length := by
  induction k using Nat.strongRecOn generalizing s es with
  | ind k ih =>
    obtain rfl | hpos := Nat.eq_zero_or_pos k
    · exact Nat.zero_le _
    have hone : B + 1 ≤ es.length := by
      have hmul := Nat.mul_le_mul_right (B + 1) hpos
      omega
    have hw : waiting s ≠ [] := fun hnil => by
      rw [hnil] at hk
      exact absurd hk (by simp; omega)
    obtain ⟨fs, gs, hes, hfs⟩ : ∃ fs gs, es = fs ++ gs ∧ fs.length = B + 1 :=
      ⟨es.take (B + 1), es.drop (B + 1), (List.take_append_drop ..).symm, by simp [hone]⟩
    have hsome := h.some hrank hs hw (show rank s < fs.length from by
      have hrs := hB s hs
      omega)
    have hpos' := List.length_pos_iff.mpr hsome
    have hops := congrArg List.length (h.ops hs fs)
    rw [List.length_append, List.length_append] at hops
    subst hes
    rw [List.length_append] at hlen
    rw [emitted_append, List.length_append]
    by_cases hmany : k ≤ (emitted step performed s fs).length
    · omega
    · have hless : (k - (emitted step performed s fs).length) * (B + 1) ≤ gs.length := by
        have hmul := Nat.mul_le_mul_right (B + 1)
          (show k - (emitted step performed s fs).length ≤ k - 1 by omega)
        have hsplit : k * (B + 1) = (k - 1) * (B + 1) + (B + 1) := by
          rw [← Nat.succ_mul, Nat.succ_eq_add_one, Nat.sub_add_cancel hpos]
        omega
      have hi : I (run step s fs) := run_preserves I h.step_inv hs
      have hrest := ih (k - (emitted step performed s fs).length) (by omega) hi (by omega) hless
      omega

/-- A delay line: what is in its first `k` places comes out in `k` steps. -/
theorem drained {place : Nat → S → List D} (hI : ∀ s e, I s → I (step s e))
    (h0 : ∀ s, place 0 s = []) {K : Nat}
    (hplace : ∀ k s e, I s → k < K → place (k + 1) s = answered s e ++ place k (step s e))
    {k : Nat} (hk : k ≤ K) {s : S} (hs : I s) {es : List E} (hlen : k ≤ es.length) :
    place k s <+: emitted step answered s es := by
  induction es generalizing k s with
  | nil =>
    obtain rfl := Nat.le_zero.mp hlen
    rw [h0]
    exact List.nil_prefix
  | cons e es ih =>
    cases k with
    | zero =>
      rw [h0]
      exact List.nil_prefix
    | succ k =>
      rw [hplace k s e hs hk, emitted]
      exact (List.prefix_append_right_inj _).mpr
        (ih (Nat.le_of_succ_le hk) (hI s e hs) (Nat.le_of_succ_le_succ hlen))

/-- **Prompt service rule.** What came in is answered when all that waits has had
its turn and the pipe has had time to run empty. -/
theorem Serves.prompt (h : Serves merge step I mem accepted performed waiting answered pipe)
    {J : S → Prop} (hJ : Serves merge step J mem accepted performed waiting answered pipe)
    {rank : S → Nat} {B N k : Nat} (hB : ∀ s, J s → rank s ≤ B)
    (hrank : ∀ s e, J s → waiting s ≠ [] → performed s e = [] → rank (step s e) < rank s)
    (hN : ∀ s, J s → (waiting s).length ≤ N)
    (hk : ∀ s es, J s → k ≤ es.length → pipe s <+: emitted step answered s es) {s : S} (hs : I s)
    (hw : waiting s = []) (hp : pipe s = []) {es fs : List E} (hes : J (Sync.run step s es))
    (hfs : N * (B + 1) + k ≤ fs.length) :
    replies merge (mem s) (emitted step accepted s es) <+: emitted step answered s (es ++ fs) := by
  obtain ⟨gs, ks, rfl, hgs⟩ : ∃ gs ks, fs = gs ++ ks ∧ gs.length = N * (B + 1) :=
    ⟨fs.take (N * (B + 1)), fs.drop (N * (B + 1)), (List.take_append_drop ..).symm, by
      rw [List.length_take]
      omega⟩
  have hturn : waiting (Sync.run step s es) <+:
      emitted step performed (Sync.run step s es) gs := by
    have hcount := hJ.count hB hrank hes (Nat.le_refl _)
      (Nat.le_trans (Nat.mul_le_mul_right (B + 1) (hN _ hes)) (Nat.le_of_eq hgs.symm))
    have hin := List.prefix_append (waiting (Sync.run step s es))
      (emitted step accepted (Sync.run step s es) gs)
    rw [hJ.ops hes gs] at hin
    exact List.prefix_of_prefix_length_le hin (List.prefix_append _ _) hcount
  have hops := h.ops hs es
  rw [hw, List.nil_append] at hops
  obtain ⟨rest, hrest⟩ := hturn
  obtain ⟨hdata, _⟩ := h.data hs (es ++ gs)
  rw [hp, List.nil_append, emitted_append step performed, ← hrest, ← List.append_assoc, ← hops,
    replies_append] at hdata
  have hend := hk (Sync.run step s (es ++ gs)) ks
    (by rw [run_append]; exact run_preserves J hJ.step_inv hes)
    (by rw [List.length_append] at hfs; omega)
  rw [← List.append_assoc, emitted_append step answered s (es ++ gs) ks]
  refine List.IsPrefix.trans ⟨_, hdata⟩ ?_
  exact (List.prefix_append_right_inj _).mpr hend

end
end

end FpgaLabs.Sync
