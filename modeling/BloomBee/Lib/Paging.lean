import Mathlib.Data.List.GetD
import Mathlib.Data.List.Nodup

/-! Page tables over a flat store. A list of pages of length `bs` sends position `p` to
the slot `p % bs` of its page number `p / bs`. `Stored` says that a run of positions was
copied through such a table and nothing else was touched. -/

namespace Paging

variable {bs : ℕ} {pages pages' : List ℕ} {p q : ℕ}

/-- The flat address of position `p`. -/
def addr (bs : ℕ) (pages : List ℕ) (p : ℕ) : ℕ := pages.getD (p / bs) 0 * bs + p % bs

theorem div_lt_length (h : p < pages.length * bs) : p / bs < pages.length := by
  apply Nat.div_lt_of_lt_mul
  rwa [Nat.mul_comm]

theorem addr_of_getElem? {phys : ℕ} (h : pages[p / bs]? = some phys) :
    addr bs pages p = phys * bs + p % bs := by
  rw [addr, List.getD_eq_getElem?_getD, h, Option.getD_some]

theorem addr_append (h : p < pages.length * bs) :
    addr bs (pages ++ pages') p = addr bs pages p := by
  rw [addr, addr, List.getD_append _ _ _ _ (div_lt_length h)]

theorem addr_take {n : ℕ} (h : p < n * bs) (hp : p < pages.length * bs) :
    addr bs (pages.take n) p = addr bs pages p := by
  have hn : p / bs < n := Nat.div_lt_of_lt_mul (by rwa [Nat.mul_comm])
  have hl := div_lt_length hp
  rw [addr, addr, List.getD_eq_getElem _ _ (by rw [List.length_take]; omega),
    List.getD_eq_getElem _ _ hl, List.getElem_take]

theorem addr_div (hbs : 0 < bs) : addr bs pages p / bs = pages.getD (p / bs) 0 := by
  rw [addr, Nat.mul_comm, Nat.mul_add_div hbs, Nat.div_eq_of_lt (Nat.mod_lt _ hbs), Nat.add_zero]

theorem addr_mod : addr bs pages p % bs = p % bs := by
  rw [addr, Nat.mul_comm, Nat.mul_add_mod, Nat.mod_mod]

/-- A table without repeats never sends two positions to one address. -/
theorem addr_injective (hbs : 0 < bs) (hn : pages.Nodup) (hp : p < pages.length * bs)
    (hq : q < pages.length * bs) (h : addr bs pages p = addr bs pages q) : p = q := by
  have hpage : pages.getD (p / bs) 0 = pages.getD (q / bs) 0 := by
    rw [← addr_div hbs, ← addr_div hbs, h]
  have hslot : p % bs = q % bs := by
    calc p % bs = addr bs pages p % bs := addr_mod.symm
      _ = addr bs pages q % bs := by rw [h]
      _ = q % bs := addr_mod
  rw [List.getD_eq_getElem _ _ (div_lt_length hp), List.getD_eq_getElem _ _ (div_lt_length hq)]
    at hpage
  have hdiv : p / bs = q / bs := (hn.getElem_inj_iff).mp hpage
  rw [← Nat.div_add_mod p bs, ← Nat.div_add_mod q bs, hdiv, hslot]

theorem addr_ne_of_disjoint (hbs : 0 < bs) (hd : pages.Disjoint pages')
    (hp : p < pages.length * bs) (hq : q < pages'.length * bs) :
    addr bs pages p ≠ addr bs pages' q := by
  intro h
  have hpage : pages.getD (p / bs) 0 = pages'.getD (q / bs) 0 := by
    rw [← addr_div hbs, ← addr_div hbs, h]
  rw [List.getD_eq_getElem _ _ (div_lt_length hp), List.getD_eq_getElem _ _ (div_lt_length hq)]
    at hpage
  have hmem : pages.get ⟨p / bs, div_lt_length hp⟩ ∈ pages' := by
    rw [List.get_eq_getElem, hpage]; exact List.getElem_mem _
  exact hd (List.getElem_mem _) hmem

theorem addr_add {i : ℕ} (h : p % bs + i < bs) :
    addr bs pages (p + i) = addr bs pages p + i := by
  have hpos : 0 < bs := by omega
  have hmod : (p + i) % bs = p % bs + i := by
    rw [Nat.add_mod, Nat.mod_eq_of_lt (a := i) (by omega), Nat.mod_eq_of_lt h]
  have hdiv : (p + i) / bs = p / bs := by
    have h1 := Nat.div_add_mod (p + i) bs
    have h2 := Nat.div_add_mod p bs
    rw [hmod] at h1
    have h3 : bs * ((p + i) / bs) = bs * (p / bs) := by omega
    exact Nat.eq_of_mul_eq_mul_left hpos h3
  rw [addr, addr, hmod, hdiv]
  omega

section Stored

variable {α : Type*} {lo hi start n m : ℕ} {src old mid new : ℕ → ℕ → ℕ → α}

/-- `new` is `old` after `src` was copied to the positions `[start, start + n)` and the
columns `[lo, hi)`. -/
structure Stored (bs : ℕ) (pages : List ℕ) (lo hi start n : ℕ)
    (src old new : ℕ → ℕ → ℕ → α) : Prop where
  copied : ∀ i c e, i < n → lo ≤ c → c < hi →
    new (addr bs pages (start + i)) c e = src i (c - lo) e
  kept : ∀ s c e, (∀ i < n, addr bs pages (start + i) = s → ¬(lo ≤ c ∧ c < hi)) →
    new s c e = old s c e

theorem Stored.refl : Stored bs pages lo hi start 0 src old old :=
  ⟨fun _ _ _ h => absurd h (Nat.not_lt_zero _), fun _ _ _ _ => rfl⟩

/-- Copying a run and then the run behind it copies both. -/
theorem Stored.append (hbs : 0 < bs) (hn : pages.Nodup) (hlen : start + n + m ≤ pages.length * bs)
    (h₁ : Stored bs pages lo hi start n src old mid)
    (h₂ : Stored bs pages lo hi (start + n) m (fun i => src (n + i)) mid new) :
    Stored bs pages lo hi start (n + m) src old new := by
  refine ⟨?_, ?_⟩
  · intro i c e hi' hc hc'
    rcases Nat.lt_or_ge i n with hlt | hge
    · rw [h₂.kept, h₁.copied i c e hlt hc hc']
      intro j hj hadd
      have := addr_injective hbs hn (by omega) (by omega) hadd
      omega
    · obtain ⟨j, rfl⟩ := Nat.exists_eq_add_of_le hge
      have := h₂.copied j c e (by omega) hc hc'
      rwa [Nat.add_assoc] at this
  · intro s c e hs
    rw [h₂.kept, h₁.kept]
    · intro i hi' hadd
      exact hs i (by omega) hadd
    · intro i hi' hadd
      exact hs (n + i) (by omega) (by rw [← Nat.add_assoc]; exact hadd)

/-- Two runs of positions with one table: what was stored earlier is still there outside
the new run. -/
theorem Stored.kept_of_notMem (hbs : 0 < bs) (hn : pages.Nodup)
    (hlen : start + n ≤ pages.length * bs) (h : Stored bs pages lo hi start n src old new)
    (hp : p < pages.length * bs) {c e : ℕ} (hout : ¬(start ≤ p ∧ p < start + n ∧ lo ≤ c ∧ c < hi)) :
    new (addr bs pages p) c e = old (addr bs pages p) c e := by
  apply h.kept
  intro i hi' hadd hc
  have := addr_injective hbs hn (by omega) hp hadd
  exact hout ⟨by omega, by omega, hc⟩

theorem Stored.kept_of_disjoint (hbs : 0 < bs) (hd : pages.Disjoint pages')
    (hlen : start + n ≤ pages.length * bs) (h : Stored bs pages lo hi start n src old new)
    (hp : p < pages'.length * bs) (c e : ℕ) :
    new (addr bs pages' p) c e = old (addr bs pages' p) c e := by
  apply h.kept
  intro i hi' hadd
  exact absurd hadd (addr_ne_of_disjoint hbs hd (by omega) hp)

end Stored

end Paging
