import N2kMux.AisDedup.Preference

/-!
# From one source of a ship to another

While the ranks of the sources stay the same, a ship goes over to a worse source only
after the better ones were silent for the timeout, and is not lost on the way: a report
that is not accepted follows an accepted one of the same ship, at most one timeout ago
for each better source.
-/

namespace N2kMux
namespace AisDedup

open Obs

/-- The sources that reported a ship and are better than `src`. -/
def betterSources (rank : Int → Int) (calls : List Call) (mmsi : UInt32) (src : Int) :
    Finset Int :=
  ((calls.filter fun c => c.mmsi = mmsi).map Call.src).toFinset.filter fun s =>
    Better (rank s, s) (rank src, src)

/-- The ranks are `rank` at every call. -/
def Ranked (cfg : Config) (rank : Int → Int) (calls : List Call) : Prop :=
  ∀ c ∈ calls, ∀ s, rankOf cfg c.reg c.pgn s = rank s

/-- The call `c` behind the calls `before` is accepted. -/
def Passes (cfg : Config) (timeout : UInt32) (before : List Call) (c : Call) : Prop :=
  (((start cfg timeout).runFrom before).answer c).1 = true

variable {cfg : Config} {timeout : UInt32} {rank : Int → Int}
  {calls before after : List Call} {c : Call}

/-- A call is accepted when its source is the one that is retained. -/
theorem passes_iff (hmono : Monotone (before ++ [c]))
    (hfits : Fits (start cfg timeout).timeoutMs.toNat (before ++ [c])) :
    Passes cfg timeout before c ↔
      Retained cfg c.reg c.pgn (reports (before ++ [c])) c.mmsi c.src c.now
        (start cfg timeout).timeoutMs.toNat := by
  obtain ⟨hmono', hpast⟩ := time_le_last hmono
  have htracks := runFrom_tracks cfg timeout hmono' (fun b x r hb htracks => by
    subst hb
    exact hfits.roomy (List.append_assoc b (x :: r) [c]) htracks
      (by rw [(runFrom_cfg _ _).2])) hpast
  obtain ⟨hcfg, htimeout⟩ := runFrom_cfg (start cfg timeout) before
  have hroom := hfits.roomy rfl htracks (by rw [htimeout])
  have hiff := (htracks.answer UInt64.le_rfl hroom).1
  rwa [hcfg, htimeout, ← reports_append_singleton] at hiff

/-- A report that is not accepted follows a report of a better source, within the
timeout. -/
theorem exists_better (hmono : Monotone (before ++ [c]))
    (hfits : Fits (start cfg timeout).timeoutMs.toNat (before ++ [c]))
    (hranked : Ranked cfg rank (before ++ [c]))
    (h : ¬ Passes cfg timeout before c) :
    ∃ b d a, before = b ++ d :: a ∧ d.mmsi = c.mmsi ∧
      Better (rank d.src, d.src) (rank c.src, c.src) ∧
      c.now.toNat ≤ d.now.toNat + (start cfg timeout).timeoutMs.toNat := by
  have hranks := hranked c (by simp)
  rw [passes_iff hmono hfits, Retained, not_and_or] at h
  rcases h with h | h
  · rw [reports_append_singleton] at h
    exact absurd (heard_append_self (reports before) c.report _) h
  · obtain ⟨s, hs⟩ := not_forall.mp h
    obtain ⟨⟨o, ho, hkey, hrecent⟩, hnot⟩ := Classical.not_imp.mp hs
    have hbetter := not_not.mp hnot
    rw [hranks, hranks] at hbetter
    obtain ⟨d, hd, rfl⟩ := List.mem_map.mp ho
    obtain ⟨hmmsi, rfl⟩ := Prod.mk.inj hkey
    rcases List.mem_append.mp hd with hd | hd
    · obtain ⟨b, a, hsplit⟩ := List.append_of_mem hd
      exact ⟨b, d, a, hsplit, hmmsi, hbetter, hrecent⟩
    · -- no source is better than itself
      rw [List.mem_singleton.mp hd] at hbetter
      exact absurd hbetter (better_ranking.irrefl _)

theorem Fits.left {delay : Nat} {more : List Call} (h : Fits delay (calls ++ more)) :
    Fits delay calls := by
  rintro b x a rfl
  exact h b x (a ++ more) (by simp)

theorem Monotone.left {more : List Call} (h : Monotone (calls ++ more)) : Monotone calls :=
  (List.pairwise_append.mp h).1

/-- One better source less is left at the report of a better source. -/
theorem card_betterSources {b a : List Call} {d : Call}
    (hsplit : before = b ++ d :: a)
    (hmmsi : d.mmsi = c.mmsi)
    (hbetter : Better (rank d.src, d.src) (rank c.src, c.src)) :
    (betterSources rank b d.mmsi d.src).card + 1 ≤
      (betterSources rank before c.mmsi c.src).card := by
  have hself : d.src ∉ betterSources rank b d.mmsi d.src := by
    intro h
    exact better_ranking.irrefl _ (Finset.mem_filter.mp h).2
  rw [← Finset.card_insert_of_notMem hself]
  refine Finset.card_le_card fun s hs => ?_
  rcases Finset.mem_insert.mp hs with rfl | hs
  · refine Finset.mem_filter.mpr ⟨?_, hbetter⟩
    rw [List.mem_toFinset, hsplit]
    exact List.mem_map_of_mem (List.mem_filter.mpr ⟨by simp, by simpa using hmmsi⟩)
  · obtain ⟨hmem, hs⟩ := Finset.mem_filter.mp hs
    refine Finset.mem_filter.mpr ⟨?_, ?_⟩
    · rw [List.mem_toFinset] at hmem ⊢
      rw [hsplit, ← hmmsi]
      obtain ⟨x, hx, rfl⟩ := List.mem_map.mp hmem
      obtain ⟨hx, hxm⟩ := List.mem_filter.mp hx
      exact List.mem_map_of_mem (List.mem_filter.mpr ⟨by simp [hx], hxm⟩)
    · unfold Better at hs hbetter ⊢
      simp only at hs hbetter ⊢
      omega

/-- An accepted report at most one timeout ago for each better source. -/
theorem exists_passed (hmono : Monotone (before ++ [c]))
    (hfits : Fits (start cfg timeout).timeoutMs.toNat (before ++ [c]))
    (hranked : Ranked cfg rank (before ++ [c])) :
    ∃ b d a, before ++ [c] = b ++ d :: a ∧ d.mmsi = c.mmsi ∧ Passes cfg timeout b d ∧
      c.now.toNat ≤ d.now.toNat + (betterSources rank before c.mmsi c.src).card *
        (start cfg timeout).timeoutMs.toNat := by
  induction hlen : before.length using Nat.strong_induction_on generalizing before c with
  | _ n ih =>
      by_cases hpass : Passes cfg timeout before c
      · exact ⟨before, c, [], rfl, rfl, hpass, Nat.le_add_right _ _⟩
      · obtain ⟨b, d, a, hsplit, hmmsi, hbetter, hnear⟩ :=
          exists_better hmono hfits hranked hpass
        have hwhole : before ++ [c] = (b ++ [d]) ++ (a ++ [c]) := by simp [hsplit]
        rw [hwhole] at hmono hfits
        have hranked' : Ranked cfg rank (b ++ [d]) := fun x hx =>
          hranked x (by rw [hwhole]; exact List.mem_append_left _ hx)
        have hshorter : b.length < n := by
          rw [← hlen, hsplit]
          simp
        obtain ⟨b', e, a', hsplit', hmmsi', hpass', hnear'⟩ :=
          ih b.length hshorter hmono.left hfits.left hranked' rfl
        refine ⟨b', e, a' ++ (a ++ [c]), ?_, hmmsi'.trans hmmsi, hpass', ?_⟩
        · rw [hwhole, hsplit', List.append_assoc, List.cons_append]
        · have hcard := card_betterSources hsplit hmmsi hbetter
          have hmul := Nat.mul_le_mul_right (start cfg timeout).timeoutMs.toNat hcard
          rw [Nat.add_mul, Nat.one_mul] at hmul
          omega

/--
From one source of a ship to another, in every run with a clock that does not go back,
with room in the table and with ranks that stay the same.  A report is accepted only when
every better source of the ship was silent for longer than the timeout; and a report that
is not accepted follows an accepted one of the ship, at most one timeout ago for each
better source.
-/
theorem hand_over (cfg : Config) (timeout : UInt32) (rank : Int → Int) (calls : List Call)
    (hmono : Monotone calls)
    (hfits : Fits (start cfg timeout).timeoutMs.toNat calls)
    (hranked : Ranked cfg rank calls)
    (before : List Call) (c : Call) (after : List Call)
    (hsplit : calls = before ++ c :: after) :
    (Passes cfg timeout before c → ∀ d ∈ before, d.mmsi = c.mmsi →
      Better (rank d.src, d.src) (rank c.src, c.src) →
        d.now.toNat + (start cfg timeout).timeoutMs.toNat < c.now.toNat) ∧
    ∃ b d a, before ++ [c] = b ++ d :: a ∧ d.mmsi = c.mmsi ∧ Passes cfg timeout b d ∧
      c.now.toNat ≤ d.now.toNat + (betterSources rank before c.mmsi c.src).card *
        (start cfg timeout).timeoutMs.toNat := by
  have hwhole : calls = (before ++ [c]) ++ after := by simp [hsplit]
  rw [hwhole] at hmono hfits
  have hranked' : Ranked cfg rank (before ++ [c]) := fun x hx =>
    hranked x (by rw [hwhole]; exact List.mem_append_left _ hx)
  refine ⟨fun hpass d hd hmmsi hbetter => ?_, exists_passed hmono.left hfits.left hranked'⟩
  obtain ⟨-, hbest⟩ := (passes_iff hmono.left hfits.left).mp hpass
  have hranks := hranked' c (by simp)
  by_contra hnear
  refine hbest d.src ⟨d.report, ?_, by rw [← hmmsi]; rfl, not_lt.mp hnear⟩ ?_
  · exact List.mem_map_of_mem (List.mem_append_left _ hd)
  · rwa [hranks, hranks]

/-- `A` reports a ship, and `B` half a second later. -/
theorem hand_over_ship :
    ∃ b d a, [shipReport 5 1000, shipReport 3 1500] = b ++ d :: a ∧
      Passes (twoReceivers .fusion) 1000 b d ∧ 500 ≤ d.now.toNat := by
  obtain ⟨b, d, a, hsplit, -, hpass, hnear⟩ := (hand_over (twoReceivers .fusion) 1000
    (rankOf (twoReceivers .fusion) receivers 129039) [shipReport 5 1000, shipReport 3 1500]
    (by decide) (fits_of_length (by decide)) (by simp [Ranked, shipReport])
    [shipReport 5 1000] (shipReport 3 1500) [] rfl).2
  have hcard : (betterSources (rankOf (twoReceivers .fusion) receivers 129039)
      [shipReport 5 1000] (shipReport 3 1500).mmsi (shipReport 3 1500).src).card = 1 := by
    decide +kernel
  have hdelay : (start (twoReceivers .fusion) 1000).timeoutMs.toNat = 1000 := by decide
  have hnow : (shipReport 3 1500).now.toNat = 1500 := rfl
  rw [hcard, hdelay, hnow] at hnear
  exact ⟨b, d, a, hsplit, hpass, by omega⟩

end AisDedup
end N2kMux
