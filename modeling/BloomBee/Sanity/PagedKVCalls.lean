import BloomBee.Lib.Dict
import BloomBee.Spec.PagedKV
import BloomBee.Lib.Paging

/-! Page conservation in the paged KV table, and what each of its calls can do. The two loops that
move pages have closed forms, and the free stack and the page lists of the registered sequences
partition the pages. The copy loops are stores and loads through the sequence's page list, and every
call either leaves the table alone or changes the state of the one sequence it names. -/

namespace BloomBee.PagedKV

variable {α : Type}

namespace PagedKVTable

theorem takePages_eq (needed : ℕ) (pages free : List ℕ) :
    takePages needed pages free =
      (pages ++ free.take (needed - pages.length), free.drop (needed - pages.length)) := by
  induction free generalizing pages with
  | nil => simp [takePages]
  | cons p free ih =>
    rw [takePages]
    split_ifs with h
    · have hs : needed - pages.length = (needed - (pages ++ [p]).length) + 1 := by
        simp only [List.length_append, List.length_singleton]; omega
      rw [ih, hs]
      simp
    · rw [show needed - pages.length = 0 by omega]
      simp

theorem dropPages_eq (keep : ℕ) (rev free : List ℕ) :
    dropPages keep rev free =
      (rev.drop (rev.length - keep), (rev.take (rev.length - keep)).reverse ++ free) := by
  induction rev generalizing free with
  | nil => simp [dropPages]
  | cons p rest ih =>
    rw [dropPages]
    split_ifs with h
    · rw [ih, List.length_cons, show rest.length + 1 - keep = (rest.length - keep) + 1 by omega]
      simp
    · rw [List.length_cons, show rest.length + 1 - keep = 0 by omega]
      simp

/-- The pages a rollback keeps are the first `keep` of the sequence. -/
theorem dropPages_reverse (keep : ℕ) (pages free : List ℕ) :
    dropPages keep pages.reverse free =
      ((pages.take keep).reverse, pages.drop keep ++ free) := by
  rw [dropPages_eq, List.length_reverse, List.drop_reverse, List.take_reverse, List.reverse_reverse]
  rcases Nat.le_total keep pages.length with h | h
  · rw [show pages.length - (pages.length - keep) = keep by omega]
  · rw [show pages.length - keep = 0 by omega, List.take_of_length_le h, List.drop_of_length_le h]
    simp

theorem le_pagesFor_mul (t : PagedKVTable α) (n : ℕ) : n ≤ t.pagesFor n * t.blockSize := by
  have hpos := t.blockSize_pos
  have hlt := Nat.lt_div_mul_add (a := n + t.blockSize - 1) hpos
  unfold pagesFor
  omega

theorem pagesFor_le {t : PagedKVTable α} {n m : ℕ} (h : n ≤ m * t.blockSize) :
    t.pagesFor n ≤ m := by
  have hpos := t.blockSize_pos
  unfold pagesFor
  apply Nat.lt_succ_iff.mp
  rw [Nat.div_lt_iff_lt_mul hpos, Nat.succ_mul]
  omega

end PagedKVTable

open PagedKVTable

def seqPages (t : PagedKVTable α) : List ℕ := Dict.collect SeqState.pages t.seqs

def SeqState.Fits (blockSize : ℕ) (st : SeqState) : Prop :=
  st.lAcc ≤ st.lSeq ∧ st.lSeq ≤ st.pages.length * blockSize

structure Inv (t : PagedKVTable α) : Prop where
  pages : (t.free ++ seqPages t).Perm (List.range t.numPages)
  fits : ∀ seq st, t.seqs.lookup seq = some st → st.Fits t.blockSize

/-- Changing one registered sequence keeps the invariant when its pages and the free
stack hold the same pages as before and its new lengths fit. -/
theorem Inv.update {t : PagedKVTable α} (h : Inv t) {seq : ℤ} {st st' : SeqState} {free : List ℕ}
    (hl : t.seqs.lookup seq = some st) (hp : (free ++ st'.pages).Perm (t.free ++ st.pages))
    (hfit : st'.Fits t.blockSize) :
    Inv { t with free := free, seqs := t.seqs.insert seq st' } := by
  refine ⟨?_, ?_⟩
  · have hold : (t.free ++ seqPages t).Perm
        ((t.free ++ st.pages) ++ Dict.collect SeqState.pages (t.seqs.erase seq)) := by
      rw [List.append_assoc]
      exact (Dict.collect_perm_erase _ hl).append_left _
    simp only [seqPages, Dict.collect_insert, ← List.append_assoc]
    exact (hp.append_right _).trans (hold.symm.trans h.pages)
  · intro s x hx
    rw [Dict.lookup_insert_eq] at hx
    split_ifs at hx with hs
    · obtain rfl := Option.some.inj hx; exact hfit
    · exact h.fits s x hx

theorem advance_fits {st : SeqState} {blockSize endPos : ℕ} {commit : Bool}
    (h : st.Fits blockSize) (he : endPos ≤ st.pages.length * blockSize) :
    (advance st endPos commit).Fits blockSize := by
  obtain ⟨h1, h2⟩ := h
  simp only [advance, SeqState.Fits]
  cases commit <;> simp only [Bool.true_and, Bool.false_and, decide_eq_true_eq] <;>
    split_ifs <;> constructor <;> omega

/-- A new table has all its pages on the stack, in order, and no sequence. -/
theorem init_fresh {backingK backingV : Tensor α} {blockSize : ℕ} {t : PagedKVTable α}
    (h : init backingK backingV blockSize = .ok t) :
    t.free = List.range t.numPages ∧ t.seqs = ∅ := by
  unfold init at h
  split at h
  · cases h
  · split at h
    · split_ifs at h
      obtain rfl := Except.ok.inj h
      exact ⟨rfl, rfl⟩
    · cases h

theorem inv_init {backingK backingV : Tensor α} {blockSize : ℕ} {t : PagedKVTable α}
    (h : init backingK backingV blockSize = .ok t) : Inv t := by
  obtain ⟨hfree, hseqs⟩ := init_fresh h
  refine ⟨?_, ?_⟩
  · rw [hfree, seqPages, hseqs, Dict.collect_empty, List.append_nil]
  · intro seq st hst
    rw [hseqs, AList.lookup_empty] at hst
    cases hst

theorem Inv.insert {t : PagedKVTable α} (h : Inv t) {seq : ℤ} (hm : seq ∉ t.seqs) :
    Inv { t with seqs := t.seqs.insert seq {} } := by
  refine ⟨?_, ?_⟩
  · simpa [seqPages, Dict.collect_insert, Dict.collect_erase_of_notMem _ hm] using h.pages
  · intro s st hst
    rw [Dict.lookup_insert_eq] at hst
    split_ifs at hst
    · obtain rfl := Option.some.inj hst
      exact ⟨Nat.le_refl _, Nat.zero_le _⟩
    · exact h.fits s st hst

theorem Inv.erase {t : PagedKVTable α} (h : Inv t) {seq : ℤ} {st : SeqState}
    (hl : t.seqs.lookup seq = some st) :
    Inv { t with seqs := t.seqs.erase seq, free := st.pages.reverse ++ t.free } := by
  refine ⟨?_, ?_⟩
  · have hsplit := (Dict.collect_perm_erase SeqState.pages hl).append_left t.free
    refine List.Perm.trans ?_ (hsplit.symm.trans h.pages)
    rw [← List.append_assoc]
    exact ((st.pages.reverse_perm.append_right _).trans List.perm_append_comm).append_right _
  · intro s x hx
    have hne : s ≠ seq := by
      rintro rfl
      rw [AList.lookup_erase] at hx
      cases hx
    rw [AList.lookup_erase_ne hne] at hx
    exact h.fits s x hx

/-- The table after `m` pages moved from the top of the free stack to the end of the page
list of `seq`, whose state was `st`. -/
def PagedKVTable.grow (t : PagedKVTable α) (seq : ℤ) (st : SeqState) (m : ℕ) : PagedKVTable α :=
  { t with free := t.free.drop m,
           seqs := t.seqs.insert seq { st with pages := st.pages ++ t.free.take m } }

theorem grow_lookup {t : PagedKVTable α} {seq : ℤ} {st : SeqState} {m : ℕ} :
    (t.grow seq st m).seqs.lookup seq = some { st with pages := st.pages ++ t.free.take m } := by
  simp [grow]

def heldPages (t : PagedKVTable α) (seq : ℤ) : ℕ :=
  (t.seqs.lookup seq).elim 0 fun st => st.pages.length

/-- How many pages `seq` lacks for `endPos` tokens. -/
def lacking (t : PagedKVTable α) (endPos : ℕ) (seq : ℤ) : ℕ :=
  t.pagesFor endPos - heldPages t seq

/-- `_ensure_capacity` raises when `seq` lacks more pages than are free. -/
def capacityOutcome (t : PagedKVTable α) (seq : ℤ) (endPos : ℕ) : Except Raised Unit :=
  if lacking t endPos seq ≤ t.free.length then .ok ()
  else .error (.pagedKV
    (.outOfPages (t.pagesFor endPos) (heldPages t seq + t.free.length) seq 0))

/-- `_ensure_capacity` takes the pages that a registered sequence lacks, or those that are left
before it raises. -/
theorem ensureCapacity_eq {t : PagedKVTable α} {seq : ℤ} {st : SeqState} (n : ℕ)
    (hl : t.seqs.lookup seq = some st) :
    t.ensureCapacity seq n =
      (t.grow seq st (lacking t n seq), capacityOutcome t seq n) := by
  have hheld : heldPages t seq = st.pages.length := by rw [heldPages, hl, Option.elim_some]
  have hlack : lacking t n seq = t.pagesFor n - st.pages.length := by rw [lacking, hheld]
  have hlen : (st.pages ++ t.free.take (lacking t n seq)).length =
      st.pages.length + min (lacking t n seq) t.free.length := by
    rw [List.length_append, List.length_take]
  simp only [ensureCapacity, hl, takePages_eq, ← hlack, hlen, grow, capacityOutcome, hheld]
  split_ifs with h1 h2 h2
  · omega
  · have hleft : (t.free.drop (lacking t n seq)).length = 0 := by
      rw [List.length_drop]
      omega
    rw [hleft, Nat.min_eq_right (by omega)]
  · rfl
  · omega

/-- A sequence that found the pages it lacked has pages for `n` tokens. -/
theorem grown_reaches {t : PagedKVTable α} {seq : ℤ} {n : ℕ}
    (hroom : lacking t n seq ≤ t.free.length) :
    n ≤ (((t.seqs.lookup seq).getD {}).pages ++ t.free.take (lacking t n seq)).length *
      t.blockSize := by
  have hheld : heldPages t seq = ((t.seqs.lookup seq).getD {}).pages.length := by
    rw [heldPages]
    cases t.seqs.lookup seq <;> rfl
  refine le_trans (le_pagesFor_mul t n) (Nat.mul_le_mul_right _ ?_)
  rw [List.length_append, List.length_take, Nat.min_eq_left hroom, lacking, hheld]
  omega

theorem ensureCapacity_of_lookup_none {t : PagedKVTable α} {seq : ℤ} (n : ℕ)
    (hl : t.seqs.lookup seq = none) :
    t.ensureCapacity seq n = (t, .error (.keyError seq)) := by
  simp only [ensureCapacity, hl]

end BloomBee.PagedKV

/-! ### The calls -/

namespace BloomBee.PagedKV

open PagedKVTable Paging

variable {α : Type}

/-- A copy that stays inside one page is a store of that run of positions. -/
theorem assignRows_stored {bs : ℕ} {pages : List ℕ} {lo hi pos n : ℕ} (hpage : pos % bs + n ≤ bs)
    (dst src : ℕ → ℕ → ℕ → α) :
    Stored bs pages lo hi pos n src dst (assignRows dst (addr bs pages pos) n lo hi src) := by
  refine ⟨?_, ?_⟩
  · intro i c e hi' hc hc'
    rw [addr_add (by omega), assignRows, if_pos ⟨by omega, by omega, hc, hc'⟩,
      Nat.add_sub_cancel_left]
  · intro s c e hs
    rw [assignRows, if_neg]
    rintro ⟨h1, h2, hc⟩
    refine hs (s - addr bs pages pos) (by omega) ?_ hc
    rw [addr_add (by omega)]
    omega

theorem page_exists {bs pos : ℕ} {pages : List ℕ} (h : pos < pages.length * bs) :
    ∃ phys, pages[pos / bs]? = some phys ∧ addr bs pages pos = phys * bs + pos % bs := by
  have hget : pages[pos / bs]? = some (pages.get ⟨pos / bs, div_lt_length h⟩) :=
    List.getElem?_eq_getElem _
  exact ⟨_, hget, addr_of_getElem? hget⟩

/-- The write loop stores both tensors at the positions it was given, and does not raise
while the pages reach them. -/
theorem writeLoop_spec {bs : ℕ} (hbs : 0 < bs) {pages : List ℕ} (hn : pages.Nodup)
    {lo hi endPos : ℕ} (hend : endPos ≤ pages.length * bs) (kNew vNew : ℕ → ℕ → ℕ → α)
    (fuel pos src : ℕ) (kv : (ℕ → ℕ → ℕ → α) × (ℕ → ℕ → ℕ → α)) (hfuel : endPos ≤ pos + fuel) :
    ∃ kv', writeLoop bs pages lo hi kNew vNew endPos fuel pos src kv = (kv', .ok ()) ∧
      Stored bs pages lo hi pos (endPos - pos) (fun i => kNew (src + i)) kv.1 kv'.1 ∧
      Stored bs pages lo hi pos (endPos - pos) (fun i => vNew (src + i)) kv.2 kv'.2 := by
  induction fuel generalizing pos src kv with
  | zero =>
    refine ⟨kv, rfl, ?_, ?_⟩ <;> rw [show endPos - pos = 0 by omega] <;> exact Stored.refl
  | succ fuel ih =>
    rw [writeLoop]
    split_ifs with hlt
    · obtain ⟨phys, hphys, haddr⟩ := page_exists (lt_of_lt_of_le hlt hend)
      have hslot := Nat.mod_lt pos hbs
      simp only [hphys, ← haddr]
      -- one page is stored here and the induction hypothesis stores the rest
      generalize htok : min (bs - pos % bs) (endPos - pos) = tokens
      obtain ⟨kv', hrun, hk, hv⟩ := ih (pos + tokens) (src + tokens)
        (assignRows kv.1 (addr bs pages pos) tokens lo hi fun s => kNew (src + s),
         assignRows kv.2 (addr bs pages pos) tokens lo hi fun s => vNew (src + s)) (by omega)
      have hsum : tokens + (endPos - (pos + tokens)) = endPos - pos := by omega
      refine ⟨kv', hrun, ?_, ?_⟩
      · rw [← hsum]
        refine Stored.append hbs hn (by omega) (assignRows_stored (by omega) _ _) ?_
        simpa only [Nat.add_assoc] using hk
      · rw [← hsum]
        refine Stored.append hbs hn (by omega) (assignRows_stored (by omega) _ _) ?_
        simpa only [Nat.add_assoc] using hv
    · refine ⟨kv, rfl, ?_, ?_⟩ <;> rw [show endPos - pos = 0 by omega] <;> exact Stored.refl

def loaded (bs : ℕ) (pages : List ℕ) (lo hi width length pos : ℕ)
    (store out : ℕ → ℕ → ℕ → α) : ℕ → ℕ → ℕ → α :=
  fun p c e =>
    if pos ≤ p ∧ p < length ∧ c < width then
      store (addr bs pages p) (lo + broadcastIndex (hi - lo) c) e
    else out p c e

theorem loaded_assignRows {bs : ℕ} {pages : List ℕ} {lo hi width length pos n : ℕ}
    (hpage : pos % bs + n ≤ bs) (hlen : pos + n ≤ length) (store out : ℕ → ℕ → ℕ → α) :
    loaded bs pages lo hi width length (pos + n) store
        (assignRows out pos n 0 width fun s c e =>
          store (addr bs pages pos + s) (lo + broadcastIndex (hi - lo) c) e) =
      loaded bs pages lo hi width length pos store out := by
  funext p c e
  simp only [loaded, assignRows, Nat.zero_le, true_and, Nat.sub_zero]
  by_cases h1 : pos + n ≤ p ∧ p < length ∧ c < width
  · rw [if_pos h1, if_pos ⟨by omega, h1.2⟩]
  · rw [if_neg h1]
    split_ifs with h2 h3 h3
    · rw [← addr_add (by omega), Nat.add_sub_cancel' h2.1]
    · exact absurd ⟨h2.1, by omega, h2.2.2⟩ h3
    · exact absurd ⟨h3.1, by omega, h3.2.2⟩ h2
    · rfl

theorem gatherLoop_eq (t : PagedKVTable α) {pages : List ℕ} {lo hi width length : ℕ}
    (hend : length ≤ pages.length * t.blockSize) (hb : Broadcasts (hi - lo) width)
    (fuel pos : ℕ) (out : (ℕ → ℕ → ℕ → α) × (ℕ → ℕ → ℕ → α)) (hfuel : length ≤ pos + fuel) :
    gatherLoop t pages lo hi width length fuel pos out =
      .ok (loaded t.blockSize pages lo hi width length pos t.k out.1,
           loaded t.blockSize pages lo hi width length pos t.v out.2) := by
  have hdone : ∀ pos, length ≤ pos → ∀ store out : ℕ → ℕ → ℕ → α,
      loaded t.blockSize pages lo hi width length pos store out = out := by
    intro pos hpos store out
    funext p c e
    rw [loaded, if_neg (by omega)]
  induction fuel generalizing pos out with
  | zero => rw [gatherLoop, hdone pos (by omega), hdone pos (by omega)]
  | succ fuel ih =>
    rw [gatherLoop]
    split_ifs with hlt
    · obtain ⟨phys, hphys, haddr⟩ := page_exists (lt_of_lt_of_le hlt hend)
      have hslot := Nat.mod_lt pos t.blockSize_pos
      simp only [hphys, ← haddr]
      rw [ih _ _ (by omega), loaded_assignRows (by omega) (by omega),
        loaded_assignRows (by omega) (by omega)]
    · rw [hdone pos (by omega), hdone pos (by omega)]

/-- The gather loop from the start: a slice of another width is refused at the first page. -/
theorem gatherLoop_whole (t : PagedKVTable α) {pages : List ℕ} {lo hi width length : ℕ}
    (hend : length ≤ pages.length * t.blockSize)
    (out : (ℕ → ℕ → ℕ → α) × (ℕ → ℕ → ℕ → α)) :
    gatherLoop t pages lo hi width length length 0 out =
      if 0 < length ∧ ¬Broadcasts (hi - lo) width then .error .runtimeError
      else .ok (loaded t.blockSize pages lo hi width length 0 t.k out.1,
                loaded t.blockSize pages lo hi width length 0 t.v out.2) := by
  by_cases hb : Broadcasts (hi - lo) width
  · rw [if_neg (fun h => h.2 hb), gatherLoop_eq t hend hb _ _ _ (by omega)]
  · cases length with
    | zero =>
      rw [if_neg (fun h => absurd h.1 (Nat.lt_irrefl 0))]
      rfl
    | succ n =>
      obtain ⟨phys, hphys, -⟩ := page_exists (lt_of_lt_of_le (Nat.succ_pos n) hend)
      rw [if_pos ⟨Nat.succ_pos n, hb⟩, gatherLoop, if_pos (Nat.succ_pos n)]
      simp only [hphys, if_neg hb]

/-! The calls. -/

/-- `t'` is `t` after the state `st` of `seq` was replaced by `st'`, which holds `m` pages
more, taken from the free stack. The bytes may differ. -/
structure Extended (t t' : PagedKVTable α) (seq : ℤ) (st st' : SeqState) (m : ℕ) : Prop where
  lookup : t.seqs.lookup seq = some st
  pages : st'.pages = st.pages ++ t.free.take m
  fits : st.Fits t.blockSize → st'.Fits t.blockSize
  rest : t' = { t with k := t'.k, v := t'.v, free := t.free.drop m, seqs := t.seqs.insert seq st' }

inductive Effect (t : PagedKVTable α) :
    Op α → PagedKVTable α → Except Raised Unit → Prop where
  | unchanged {op r} (hw : r = .ok () → ∀ p c e, op.wrote t.bh p c e = none) : Effect t op t r
  | registered {seq r} (hm : seq ∉ t.seqs) :
      Effect t (.registerSequence seq) { t with seqs := t.seqs.insert seq {} } r
  | released {seq st} (hl : t.seqs.lookup seq = some st) :
      Effect t (.releaseSequence seq)
        { t with seqs := t.seqs.erase seq, free := st.pages.reverse ++ t.free } (.ok ())
  | extended {op t' r st st' m} (hw : r = .ok () → ∀ p c e, op.wrote t.bh p c e = none)
      (hx : Extended t t' op.seq st st' m) (hk : t'.k = t.k) (hv : t'.v = t.v) : Effect t op t' r
  | tracked {seq start sNew c t' r st' m} (hm : seq ∉ t.seqs)
      (hx : Extended { t with seqs := t.seqs.insert seq {} } t' seq {} st' m)
      (hk : t'.k = t.k) (hv : t'.v = t.v) : Effect t (.trackWrite seq start sNew c) t' r
  | written {seq start kNew vNew bhSlice c t' sNew w dNew st st' m}
      (hx : Extended t t' seq st st' m) (hs : kNew.shape = [sNew, w, dNew])
      (hr : start + sNew ≤ st'.pages.length * t.blockSize)
      (hk : Stored t.blockSize st'.pages (sliceBound t.bh bhSlice.1) (sliceBound t.bh bhSlice.2)
        start sNew (writtenRows w dNew kNew) t.k t'.k)
      (hv : Stored t.blockSize st'.pages (sliceBound t.bh bhSlice.1) (sliceBound t.bh bhSlice.2)
        start sNew (writtenRows w dNew vNew) t.v t'.v) :
      Effect t (.write seq start kNew vNew bhSlice c) t' (.ok ())
  | rolledBack {seq st} {target : ℕ} (hl : t.seqs.lookup seq = some st) (hle : target ≤ st.lAcc) :
      Effect t (.rollback seq target)
        { t with
          free := st.pages.drop (t.pagesFor target) ++ t.free
          seqs := t.seqs.insert seq
            { pages := st.pages.take (t.pagesFor target), lAcc := target, lSeq := target } } (.ok ())

theorem grow_extended {t : PagedKVTable α} {seq : ℤ} {st : SeqState}
    (hl : t.seqs.lookup seq = some st) (m : ℕ) :
    Extended t (t.grow seq st m) seq st { st with pages := st.pages ++ t.free.take m } m := by
  refine ⟨hl, rfl, ?_, rfl⟩
  rintro ⟨h1, h2⟩
  exact ⟨h1, le_trans h2 (Nat.mul_le_mul_right _ (by simp))⟩

/-- A grown sequence whose lengths then advance within its new pages. -/
theorem advance_extended {t : PagedKVTable α} {seq : ℤ} {st : SeqState} {m n : ℕ} {commit : Bool}
    (hl : t.seqs.lookup seq = some st) (hn : n ≤ (st.pages ++ t.free.take m).length * t.blockSize)
    (k v : ℕ → ℕ → ℕ → α) :
    Extended t
      { t.grow seq st m with
        k := k, v := v
        seqs := (t.grow seq st m).seqs.insert seq
          (advance { st with pages := st.pages ++ t.free.take m } n commit) }
      seq st (advance { st with pages := st.pages ++ t.free.take m } n commit) m := by
  refine ⟨hl, rfl, ?_, by simp [grow, AList.insert_insert]⟩
  intro hf
  exact advance_fits ((grow_extended hl m).fits hf) hn

theorem Extended.inv {t t' : PagedKVTable α} {seq : ℤ} {st st' : SeqState} {m : ℕ} (h : Inv t)
    (hx : Extended t t' seq st st' m) : Inv t' := by
  have hp : (t.free.drop m ++ st'.pages).Perm (t.free ++ st.pages) := by
    rw [hx.pages]
    calc t.free.drop m ++ (st.pages ++ t.free.take m)
        |>.Perm ((st.pages ++ t.free.take m) ++ t.free.drop m) := List.perm_append_comm
      _ |>.Perm (t.free ++ st.pages) := by
        rw [List.append_assoc, List.take_append_drop]; exact List.perm_append_comm
  have hu := h.update hx.lookup hp (hx.fits (h.fits seq st hx.lookup))
  rw [hx.rest]
  exact ⟨hu.pages, hu.fits⟩

/-- The pages one sequence holds are distinct, also after it grows. -/
theorem Inv.nodup_grow {t : PagedKVTable α} (h : Inv t) {seq : ℤ} {st : SeqState}
    (hl : t.seqs.lookup seq = some st) (m : ℕ) : (st.pages ++ t.free.take m).Nodup := by
  have hg := (grow_extended hl m).inv h
  have hall : (seqPages (t.grow seq st m)).Nodup :=
    (List.nodup_append.mp (hg.pages.nodup_iff.mpr List.nodup_range)).2.1
  have hp := (Dict.collect_perm_erase SeqState.pages grow_lookup).nodup_iff.mp hall
  exact (List.nodup_append.mp hp).1

/-- Everything `write` can do. -/
inductive WriteOutcome (t : PagedKVTable α) (seq : ℤ) (start : ℕ) (kNew vNew : Tensor α)
    (bhSlice : ℤ × ℤ) (commit : Bool) : PagedKVTable α → Except Raised Unit → Prop where
  | shapesDiffer (hne : kNew.shape ≠ vNew.shape) :
      WriteOutcome t seq start kNew vNew bhSlice commit t
        (.error (.pagedKV (.newShapesDiffer kNew.shape vNew.shape)))
  | notThreeDim (hs : ∀ sNew w dNew, kNew.shape ≠ [sNew, w, dNew]) :
      WriteOutcome t seq start kNew vNew bhSlice commit t
        (.error (.pagedKV (.newNotThreeDim kNew.shape)))
  | empty {w dNew} (hs : kNew.shape = [0, w, dNew]) :
      WriteOutcome t seq start kNew vNew bhSlice commit t (.ok ())
  | unregistered (hl : t.seqs.lookup seq = none) :
      WriteOutcome t seq start kNew vNew bhSlice commit t (.error (.keyError seq))
  | outOfPages {sNew w dNew st e} (heq : kNew.shape = vNew.shape)
      (hs : kNew.shape = [sNew, w, dNew]) (hpos : 0 < sNew) (hl : t.seqs.lookup seq = some st)
      (hlt : t.free.length < lacking t (start + sNew) seq) :
      WriteOutcome t seq start kNew vNew bhSlice commit
        (t.grow seq st (lacking t (start + sNew) seq)) (.error (.pagedKV e))
  | refused {sNew w dNew st} (hs : kNew.shape = [sNew, w, dNew])
      (hl : t.seqs.lookup seq = some st) (hroom : lacking t (start + sNew) seq ≤ t.free.length) :
      WriteOutcome t seq start kNew vNew bhSlice commit
        (t.grow seq st (lacking t (start + sNew) seq)) (.error .runtimeError)
  | stored {sNew w dNew st pages k v} (hs : kNew.shape = [sNew, w, dNew])
      (hl : t.seqs.lookup seq = some st) (hroom : lacking t (start + sNew) seq ≤ t.free.length)
      (hp : pages = st.pages ++ t.free.take (lacking t (start + sNew) seq))
      (hr : start + sNew ≤ pages.length * t.blockSize)
      (hk : Stored t.blockSize pages (sliceBound t.bh bhSlice.1) (sliceBound t.bh bhSlice.2)
        start sNew (writtenRows w dNew kNew) t.k k)
      (hv : Stored t.blockSize pages (sliceBound t.bh bhSlice.1) (sliceBound t.bh bhSlice.2)
        start sNew (writtenRows w dNew vNew) t.v v) :
      WriteOutcome t seq start kNew vNew bhSlice commit
        { t.grow seq st (lacking t (start + sNew) seq) with
          k := k, v := v
          seqs := (t.grow seq st (lacking t (start + sNew) seq)).seqs.insert seq
            (advance { st with pages := pages } (start + sNew) commit) }
        (.ok ())

theorem write_outcome {t t' : PagedKVTable α} (h : Inv t) {seq : ℤ} {start : ℕ}
    {kNew vNew : Tensor α} {bhSlice : ℤ × ℤ} {commit : Bool} {r : Except Raised Unit}
    (hw : t.write seq start kNew vNew bhSlice commit = (t', r)) :
    WriteOutcome t seq start kNew vNew bhSlice commit t' r := by
  simp only [write] at hw
  split_ifs at hw with hshape
  · obtain ⟨rfl, rfl⟩ := Prod.mk.inj hw
    exact .shapesDiffer hshape
  · split at hw
    · rename_i sNew w dNew hs
      by_cases h0 : sNew = 0
      · rw [if_pos h0] at hw
        obtain ⟨rfl, rfl⟩ := Prod.mk.inj hw
        subst h0
        exact .empty hs
      · rw [if_neg h0] at hw
        cases hl : t.seqs.lookup seq with
        | none =>
          rw [ensureCapacity_of_lookup_none _ hl] at hw
          obtain ⟨rfl, rfl⟩ := Prod.mk.inj hw
          exact .unregistered hl
        | some st =>
          rw [ensureCapacity_eq _ hl, capacityOutcome] at hw
          by_cases hroom : lacking t (start + sNew) seq ≤ t.free.length
          · simp only [if_pos hroom, grow_lookup] at hw
            have hreach := grown_reaches hroom
            rw [hl, Option.getD_some] at hreach
            split_ifs at hw with hb
            · obtain ⟨kv', hrun, hk, hv⟩ := writeLoop_spec t.blockSize_pos
                (h.nodup_grow hl (lacking t (start + sNew) seq)) hreach (writtenRows w dNew kNew)
                (writtenRows w dNew vNew) sNew start 0 (t.k, t.v) (Nat.le_refl _)
              simp only [Nat.add_sub_cancel_left, Nat.zero_add] at hk hv
              unfold writtenRows at hrun
              simp only [grow] at hw
              rw [hrun] at hw
              obtain ⟨rfl, rfl⟩ := Prod.mk.inj hw
              exact .stored hs hl hroom rfl hreach hk hv
            · obtain ⟨rfl, rfl⟩ := Prod.mk.inj hw
              exact .refused hs hl hroom
          · simp only [if_neg hroom] at hw
            obtain ⟨rfl, rfl⟩ := Prod.mk.inj hw
            exact .outOfPages (not_not.mp hshape) hs (Nat.pos_of_ne_zero h0) hl
              (Nat.lt_of_not_le hroom)
    · rename_i hs
      obtain ⟨rfl, rfl⟩ := Prod.mk.inj hw
      exact .notThreeDim hs

theorem write_effect {t t' : PagedKVTable α} (h : Inv t) {seq : ℤ} {start : ℕ}
    {kNew vNew : Tensor α} {bhSlice : ℤ × ℤ} {commit : Bool} {r : Except Raised Unit}
    (hw : t.write seq start kNew vNew bhSlice commit = (t', r)) :
    Effect t (.write seq start kNew vNew bhSlice commit) t' r := by
  cases write_outcome h hw with
  | shapesDiffer | notThreeDim | unregistered => exact .unchanged (by simp)
  | empty hs =>
    refine .unchanged fun _ p c e => ?_
    simp only [Op.wrote, hs]
    rw [if_neg (by omega)]
  | outOfPages heq hs hpos hl hlt => exact .extended (by simp) (grow_extended hl _) rfl rfl
  | refused hs hl hroom => exact .extended (by simp) (grow_extended hl _) rfl rfl
  | stored hs hl hroom hp hr hk hv =>
    subst hp
    exact .written (advance_extended hl hr _ _) hs hr hk hv

/-- A sequence once the pages that it lacked were taken, if there were enough of them. -/
def trackedState (t : PagedKVTable α) (seq : ℤ) (endPos : ℕ) (commit : Bool) : SeqState :=
  let st := (t.seqs.lookup seq).getD {}
  let grown := { st with pages := st.pages ++ t.free.take (lacking t endPos seq) }
  if lacking t endPos seq ≤ t.free.length then advance grown endPos commit else grown

/-- `track_write` of at least one token. -/
theorem trackWrite_eq (t : PagedKVTable α) (seq : ℤ) (start : ℕ) {n : ℕ} (hn : 0 < n)
    (commit : Bool) :
    t.trackWrite seq start n commit =
      ({ t with
          free := t.free.drop (lacking t (start + n) seq)
          seqs := t.seqs.insert seq (trackedState t seq (start + n) commit) },
        capacityOutcome t seq (start + n)) := by
  have hpos : ¬(n : ℤ) ≤ 0 := by omega
  simp only [trackWrite, if_neg hpos, Int.toNat_natCast]
  -- the table with the sequence registered
  obtain ⟨d, ht, hl, hins⟩ : ∃ d,
      (if seq ∈ t.seqs then t else (t.registerSequence seq).1) = { t with seqs := d } ∧
      d.lookup seq = some ((t.seqs.lookup seq).getD {}) ∧
      ∀ st, d.insert seq st = t.seqs.insert seq st := by
    by_cases hm : seq ∈ t.seqs
    · obtain ⟨st, hl⟩ := Option.isSome_iff_exists.mp (AList.lookup_isSome.mpr hm)
      exact ⟨t.seqs, if_pos hm, by rw [hl]; rfl, fun _ => rfl⟩
    · refine ⟨t.seqs.insert seq {}, ?_, ?_, fun _ => AList.insert_insert _⟩
      · rw [if_neg hm, registerSequence, if_neg hm]
      · rw [AList.lookup_eq_none.mpr hm, AList.lookup_insert, Option.getD_none]
  have hheld : heldPages { t with seqs := d } seq = heldPages t seq := by
    simp only [heldPages, hl, Option.elim_some]
    cases t.seqs.lookup seq <;> rfl
  have hlack : lacking { t with seqs := d } (start + n) seq = lacking t (start + n) seq := by
    rw [lacking, hheld, lacking, pagesFor, pagesFor]
  have hout : capacityOutcome { t with seqs := d } seq (start + n) =
      capacityOutcome t seq (start + n) := by
    rw [capacityOutcome, hlack, hheld, capacityOutcome, pagesFor, pagesFor]
  rw [ht, ensureCapacity_eq (t := { t with seqs := d }) (start + n) hl, hlack, hout]
  simp only [trackedState, capacityOutcome]
  split_ifs with hroom
  · simp only [grow_lookup]
    simp only [grow, AList.insert_insert, hins]
  · simp only [grow, hins]

theorem trackedState_pages (t : PagedKVTable α) (seq : ℤ) (endPos : ℕ) (commit : Bool) :
    (trackedState t seq endPos commit).pages =
      ((t.seqs.lookup seq).getD {}).pages ++ t.free.take (lacking t endPos seq) := by
  simp only [trackedState]
  split_ifs <;> rfl

theorem trackedState_fits {t : PagedKVTable α} {seq : ℤ} (endPos : ℕ) (commit : Bool)
    (hf : ((t.seqs.lookup seq).getD {}).Fits t.blockSize) :
    (trackedState t seq endPos commit).Fits t.blockSize := by
  have hgrown : SeqState.Fits t.blockSize { (t.seqs.lookup seq).getD {} with
      pages := ((t.seqs.lookup seq).getD {}).pages ++ t.free.take (lacking t endPos seq) } := by
    refine ⟨hf.1, le_trans hf.2 (Nat.mul_le_mul_right _ ?_)⟩
    rw [List.length_append]
    exact Nat.le_add_right _ _
  simp only [trackedState]
  split_ifs with hroom
  · exact advance_fits hgrown (grown_reaches hroom)
  · exact hgrown

theorem trackWrite_effect {t t' : PagedKVTable α} {seq : ℤ} {start : ℕ} {sNew : ℤ} {commit : Bool}
    {r : Except Raised Unit} (hw : t.trackWrite seq start sNew commit = (t', r)) :
    Effect t (.trackWrite seq start sNew commit) t' r := by
  by_cases h0 : sNew ≤ 0
  · simp only [trackWrite, if_pos h0] at hw
    obtain ⟨rfl, rfl⟩ := Prod.mk.inj hw
    exact .unchanged fun _ _ _ _ => rfl
  · obtain ⟨n, rfl⟩ := Int.eq_ofNat_of_zero_le (by omega : 0 ≤ sNew)
    rw [trackWrite_eq t seq start (by omega)] at hw
    obtain ⟨rfl, rfl⟩ := Prod.mk.inj hw
    have hpages := trackedState_pages t seq (start + n) commit
    have hfits (hf : ((t.seqs.lookup seq).getD {}).Fits t.blockSize) :=
      trackedState_fits (start + n) commit hf
    cases hl : t.seqs.lookup seq with
    | none =>
      rw [hl, Option.getD_none] at hpages hfits
      refine .tracked (AList.lookup_eq_none.mp hl)
        ⟨AList.lookup_insert _, hpages, hfits, ?_⟩ rfl rfl
      simp only [AList.insert_insert]
    | some st =>
      rw [hl, Option.getD_some] at hpages hfits
      exact .extended (fun _ _ _ _ => rfl) ⟨hl, hpages, hfits, rfl⟩ rfl rfl

theorem commit_effect {t t' : PagedKVTable α} {seq : ℤ} {upTo : Option ℤ} {r : Except Raised Unit}
    (hw : t.commit seq upTo = (t', r)) : Effect t (.commit seq upTo) t' r := by
  have hsame : Effect t (.commit seq upTo) t r := .unchanged fun _ _ _ _ => rfl
  simp only [PagedKVTable.commit] at hw
  split at hw
  · obtain ⟨rfl, -⟩ := Prod.mk.inj hw; exact hsame
  · rename_i st hl
    split_ifs at hw with h1 h2
    · obtain ⟨rfl, -⟩ := Prod.mk.inj hw; exact hsame
    · obtain ⟨rfl, rfl⟩ := Prod.mk.inj hw
      refine .extended (m := 0) (fun _ _ _ _ => rfl) ⟨hl, by simp, ?_, rfl⟩ rfl rfl
      rintro ⟨hf1, hf2⟩
      exact ⟨by simp only; omega, hf2⟩
    · obtain ⟨rfl, -⟩ := Prod.mk.inj hw; exact hsame

theorem rollback_effect {t t' : PagedKVTable α} {seq target : ℤ} {r : Except Raised Unit}
    (hw : t.rollback seq target = (t', r)) : Effect t (.rollback seq target) t' r := by
  have hsame : Effect t (.rollback seq target) t r := .unchanged fun _ _ _ _ => rfl
  simp only [rollback] at hw
  split at hw
  · obtain ⟨rfl, -⟩ := Prod.mk.inj hw; exact hsame
  · rename_i st hl
    split_ifs at hw with h1 h2
    · obtain ⟨rfl, -⟩ := Prod.mk.inj hw; exact hsame
    · obtain ⟨rfl, -⟩ := Prod.mk.inj hw; exact hsame
    · rw [dropPages_reverse] at hw
      obtain ⟨rfl, rfl⟩ := Prod.mk.inj hw
      obtain ⟨target, rfl⟩ := Int.eq_ofNat_of_zero_le (by omega : 0 ≤ target)
      simpa using Effect.rolledBack hl (by omega)

theorem apply_effect {t t' : PagedKVTable α} (h : Inv t) {op : Op α} {r : Except Raised Unit}
    (ha : op.apply t = (t', r)) : Effect t op t' r := by
  cases op with
  | registerSequence seq =>
    simp only [Op.apply, registerSequence] at ha
    split_ifs at ha with hm
    · obtain ⟨rfl, rfl⟩ := Prod.mk.inj ha
      exact .unchanged (by simp)
    · obtain ⟨rfl, rfl⟩ := Prod.mk.inj ha
      exact .registered hm
  | releaseSequence seq =>
    simp only [Op.apply, releaseSequence] at ha
    split at ha
    · obtain ⟨rfl, rfl⟩ := Prod.mk.inj ha
      exact .unchanged fun _ _ _ _ => rfl
    · rename_i st hl
      obtain ⟨rfl, rfl⟩ := Prod.mk.inj ha
      exact .released hl
  | write seq start kNew vNew bhSlice commit => exact write_effect h ha
  | trackWrite seq start sNew commit => exact trackWrite_effect ha
  | commit seq upTo => exact commit_effect ha
  | rollback seq target => exact rollback_effect ha

/-! The invariant along a run. -/

theorem Effect.inv {t t' : PagedKVTable α} {op : Op α} {r : Except Raised Unit} (h : Inv t)
    (he : Effect t op t' r) : Inv t' := by
  cases he with
  | unchanged hw => exact h
  | registered hm => exact h.insert hm
  | released hl => exact h.erase hl
  | extended hw hx hk hv => exact hx.inv h
  | tracked hm hx hk hv => exact hx.inv (h.insert hm)
  | written hx hs hr hk hv => exact hx.inv h
  | rolledBack hl hle =>
    rename_i seq st target
    have hfit := h.fits seq st hl
    have hkeep : t.pagesFor target ≤ st.pages.length :=
      pagesFor_le (le_trans hle (le_trans hfit.1 hfit.2))
    refine h.update hl ?_ ⟨Nat.le_refl _, ?_⟩
    · calc (st.pages.drop (t.pagesFor target) ++ t.free) ++ st.pages.take (t.pagesFor target)
          |>.Perm (st.pages.take (t.pagesFor target) ++ (st.pages.drop (t.pagesFor target) ++
            t.free)) := List.perm_append_comm
        _ |>.Perm (t.free ++ st.pages) := by
          rw [← List.append_assoc, List.take_append_drop]; exact List.perm_append_comm
    · rw [List.length_take, Nat.min_eq_left hkeep]
      exact le_pagesFor_mul t target

theorem inv_apply {t : PagedKVTable α} (h : Inv t) (op : Op α) : Inv (op.apply t).1 :=
  (apply_effect h rfl).inv h

theorem Effect.same {t t' : PagedKVTable α} {op : Op α} {r : Except Raised Unit}
    (he : Effect t op t' r) :
    t'.numPages = t.numPages ∧ t'.blockSize = t.blockSize ∧ t'.bh = t.bh ∧ t'.d = t.d := by
  cases he with
  | unchanged | registered | released | rolledBack => exact ⟨rfl, rfl, rfl, rfl⟩
  | extended hw hx hk hv => rw [hx.rest]; exact ⟨rfl, rfl, rfl, rfl⟩
  | tracked hm hx hk hv => rw [hx.rest]; exact ⟨rfl, rfl, rfl, rfl⟩
  | written hx hs hr hk hv => rw [hx.rest]; exact ⟨rfl, rfl, rfl, rfl⟩

theorem inv_runOps {t : PagedKVTable α} (h : Inv t) (ops : List (Op α)) : Inv (runOps t ops) := by
  induction ops generalizing t with
  | nil => exact h
  | cons op ops ih => exact ih (inv_apply h op)

theorem runOps_same {t : PagedKVTable α} (h : Inv t) (ops : List (Op α)) :
    (runOps t ops).numPages = t.numPages ∧ (runOps t ops).blockSize = t.blockSize ∧
      (runOps t ops).bh = t.bh ∧ (runOps t ops).d = t.d := by
  induction ops generalizing t with
  | nil => exact ⟨rfl, rfl, rfl, rfl⟩
  | cons op ops ih =>
    have he : Effect t op (op.apply t).1 (op.apply t).2 := apply_effect h rfl
    obtain ⟨h1, h2, h3, h4⟩ := he.same
    obtain ⟨i1, i2, i3, i4⟩ := ih (inv_apply h op)
    exact ⟨i1.trans h1, i2.trans h2, i3.trans h3, i4.trans h4⟩

end BloomBee.PagedKV
