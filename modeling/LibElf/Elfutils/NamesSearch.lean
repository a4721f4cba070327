import LibElf.Elfutils.LongNames

/-!
# The search for the table of long names

What `read_long_names` should do, on the bytes of the archive alone, and when it does.

1. `Search`: from header to header up to that of the table. A member without a size has no end, so that the search
   ends there, as it does at a header that is no longer there.
2. `ReadsFrom`, what reading an archive that is all of its file amounts to, mapped or not, and `search_gives`.
3. `Fine`: no header before that of the table has a negative size that leads to another header.
4. `searchExact_iff`: where both modes search the archive and nothing else.
-/

namespace LibElf.Elfutils

open Outcome

/-! ## The search -/

def headerIn (A : List UInt8) (o : Nat) : List UInt8 := window A o arHdrSize

def sizeIn (A : List UInt8) (o : Nat) : Option Int := intField (headerIn A o) 48 10

/-- The header at `o` is that of the table. -/
def TableIn (A : List UInt8) (o : Nat) : Prop := window (headerIn A o) 0 16 = padName namesName

instance (A : List UInt8) (o : Nat) : Decidable (TableIn A o) := inferInstanceAs (Decidable (_ = _))

/-- The header behind a member of size `n` whose header is at `o`. -/
def nextHeader (o : Nat) (n : Int) : Nat := o + arHdrSize + 2 * ((n.toNat + 1) / 2)

/-- The `n` bytes of the table at `p`, cut into strings. -/
def tableAt (A : List UInt8) (p : Nat) (n : Int) : Option (List UInt8) :=
  if 0 ≤ n ∧ p + n.toNat ≤ A.length then some (nulTerminate (window A p n.toNat)) else none

/-- The search for the table in the bytes of an archive, from the header at `o` on: the headers that are read, and
the table if there is one. -/
inductive Search (A : List UInt8) : Nat → List Nat → Option (List UInt8) → Prop
  | done {o : Nat} : A.length < o + arHdrSize → Search A o [] none
  | found {o : Nat} {n : Int} : o + arHdrSize ≤ A.length → sizeIn A o = some n → TableIn A o →
      Search A o [o] (tableAt A (o + arHdrSize) n)
  | broken {o : Nat} : o + arHdrSize ≤ A.length →
      (sizeIn A o = none ∨ ¬ TableIn A o ∧ ∃ n, sizeIn A o = some n ∧ n < 0) → Search A o [o] none
  | next {o : Nat} {n : Int} {ps : List Nat} {r : Option (List UInt8)} : o + arHdrSize ≤ A.length →
      sizeIn A o = some n → ¬ TableIn A o → 0 ≤ n → Search A (nextHeader o n) ps r → Search A o (o :: ps) r

/-- The offsets that the search comes to. -/
inductive Member (A : List UInt8) : Nat → Prop
  | start : Member A sarmag
  | next {o : Nat} {n : Int} : Member A o → o + arHdrSize ≤ A.length → sizeIn A o = some n → ¬ TableIn A o →
      0 ≤ n → Member A (nextHeader o n)

theorem Search.det {A : List UInt8} {o : Nat} {ps : List Nat} {r : Option (List UInt8)} (h : Search A o ps r) :
    ∀ {ps' : List Nat} {r' : Option (List UInt8)}, Search A o ps' r' → ps = ps' ∧ r = r' := by
  induction h with
  | done hend =>
    intro ps' r' h'
    cases h' with
    | done _ => exact ⟨rfl, rfl⟩
    | found hin _ _ => omega
    | broken hin _ => omega
    | next hin _ _ _ _ => omega
  | found hin hsize htable =>
    intro ps' r' h'
    cases h' with
    | done hend => omega
    | found _ hsize' _ =>
      obtain rfl := Option.some.inj (hsize.symm.trans hsize')
      exact ⟨rfl, rfl⟩
    | broken _ hbad =>
      rcases hbad with hnone | ⟨hno, -⟩
      · rw [hsize] at hnone
        cases hnone
      · exact absurd htable hno
    | next _ _ hno _ _ => exact absurd htable hno
  | broken hin hbad =>
    intro ps' r' h'
    cases h' with
    | done hend => omega
    | found _ hsize htable =>
      rcases hbad with hnone | ⟨hno, -⟩
      · rw [hsize] at hnone
        cases hnone
      · exact absurd htable hno
    | broken _ _ => exact ⟨rfl, rfl⟩
    | next _ hsize _ hpos _ =>
      rcases hbad with hnone | ⟨-, n, hn, hneg⟩
      · rw [hsize] at hnone
        cases hnone
      · obtain rfl := Option.some.inj (hsize.symm.trans hn)
        omega
  | next hin hsize hno hpos _ ih =>
    intro ps' r' h'
    cases h' with
    | done hend => omega
    | found _ _ htable => exact absurd htable hno
    | broken _ hbad =>
      rcases hbad with hnone | ⟨-, n, hn, hneg⟩
      · rw [hsize] at hnone
        cases hnone
      · obtain rfl := Option.some.inj (hsize.symm.trans hn)
        omega
    | next _ hsize' _ _ hrest =>
      obtain rfl := Option.some.inj (hsize.symm.trans hsize')
      obtain ⟨rfl, rfl⟩ := ih hrest
      exact ⟨rfl, rfl⟩

/-- The search always ends: every member takes the bytes of a header at least. -/
theorem Search.total (A : List UInt8) (k : Nat) : ∀ o, A.length ≤ o + k → ∃ ps r, Search A o ps r := by
  induction k using Nat.strongRecOn with
  | ind k ih =>
    intro o hk
    rcases Nat.lt_or_ge A.length (o + arHdrSize) with hend | hin
    · exact ⟨[], none, .done hend⟩
    · cases hsize : sizeIn A o with
      | none => exact ⟨[o], none, .broken hin (.inl hsize)⟩
      | some n =>
        by_cases htable : TableIn A o
        · exact ⟨[o], _, .found hin hsize htable⟩
        · rcases Int.lt_or_le n 0 with hneg | hpos
          · exact ⟨[o], none, .broken hin (.inr ⟨htable, n, hsize, hneg⟩)⟩
          · have hstep : o + arHdrSize ≤ nextHeader o n := Nat.le_add_right _ _
            have hsmall : arHdrSize ≤ k := by omega
            have hpos' : 0 < arHdrSize := by decide
            obtain ⟨ps, r, hrest⟩ := ih (k - arHdrSize) (by omega) (nextHeader o n) (by omega)
            exact ⟨o :: ps, r, .next hin hsize htable hpos hrest⟩

/-! ## Numbers with more behind them -/

theorem takeWhile_append_of_ne {p : UInt8 → Bool} {l r : List UInt8} (h : (l.takeWhile p).length ≠ l.length) :
    (l ++ r).takeWhile p = l.takeWhile p := by
  rw [List.takeWhile_append, if_neg h]

/-- A number that ends is the same with more behind it. -/
theorem atol_append {s : List UInt8} {n : Int} (h : atol s = some n) (t : List UInt8) : atol (s ++ t) = some n := by
  have hne : s.dropWhile isSpace ≠ [] := by
    intro hnil
    unfold atol at h
    rw [hnil] at h
    cases h
  obtain ⟨c, cs, hcons⟩ := List.exists_cons_of_ne_nil hne
  have hdrop : (s ++ t).dropWhile isSpace = c :: (cs ++ t) := by
    rw [List.dropWhile_append, hcons]
    simp
  have hsign : signOf (c :: (cs ++ t)) = ((signOf (c :: cs)).1, (signOf (c :: cs)).2 ++ t) := by
    rw [signOf, signOf]
    by_cases hminus : c = 0x2D
    · rw [if_pos hminus, if_pos hminus]
    · rw [if_neg hminus, if_neg hminus]
      by_cases hplus : c = 0x2B
      · rw [if_pos hplus, if_pos hplus]
      · rw [if_neg hplus, if_neg hplus, List.cons_append]
  unfold atol at h ⊢
  rw [hcons] at h
  rw [hdrop, hsign]
  simp only at h ⊢
  split at h
  · cases h
  · next hlen =>
    rw [takeWhile_append_of_ne hlen, if_neg]
    · exact h
    · have hprefix := (List.takeWhile_prefix isDigit (l := (signOf (c :: cs)).2)).length_le
      rw [List.length_append]
      omega

/-- So is a field of a header. -/
theorem intField_append {hdr more : List UInt8} {off len : Nat} {n : Int} (hin : off + len ≤ hdr.length) (hlen : 0 < len)
    (h : intField hdr off len = some n) : intField (hdr ++ more) off len = some n := by
  have hget : (hdr ++ more).getD (off + len - 1) 0 = hdr.getD (off + len - 1) 0 := by
    rw [List.getD_eq_getElem?_getD, List.getElem?_append_left (by omega), ← List.getD_eq_getElem?_getD]
  unfold intField at h ⊢
  rw [hget, window_append_left hin, List.drop_append_of_le_length (by omega)]
  split at h
  · next hfull => rw [if_pos hfull, h]
  · next hfull => rw [if_neg hfull, atol_append h]

/-! ## Reading -/

section Reads

variable {env : Env} {e : Elf} {A : List UInt8}

/-- Headers and tables are read from the bytes of the archive and from nowhere else. -/
structure ReadsFrom (env : Env) (e : Elf) (A : List UInt8) : Prop where
  small : A.length < 2 ^ 63
  header : ∀ o us, o + arHdrSize ≤ A.length →
    ∃ more, namesHeader env o ⟨e, us⟩ = .ok (some (headerIn A o ++ more)) ⟨e, us ++ [o]⟩
  done : ∀ o us, o < 2 ^ 64 → A.length < o + arHdrSize → namesHeader env o ⟨e, us⟩ = .ok none ⟨e, us⟩
  bytes : ∀ o len us, o + arHdrSize ≤ A.length → namesBytes env o len ⟨e, us⟩ =
    if o + arHdrSize + len ≤ A.length then .ok (window A (o + arHdrSize) len) ⟨e, us⟩
    else .err .INVALID_ARCHIVE ⟨e, us⟩

/-- An archive that is all of a mapped file. -/
theorem reads_mapped {F : Image} (hmap : e.mapAddress = some F) (hstart : e.startOffset = 0)
    (hmax : e.maximumSize = F.bytes.length) : ReadsFrom env e F.bytes := by
  have hpos : ∀ o, e.namesPos o = o := by
    intro o
    unfold Elf.namesPos
    rw [hmap]
    rfl
  have hsmall := F.small
  refine ⟨F.small, fun o us hin => ?_, fun o us _ hout => ?_, fun o len us hin => ?_⟩
  · have hno : ¬ (e.maximumSize < o ∨ e.maximumSize - o < arHdrSize) := by omega
    refine ⟨window F.bytes (o + arHdrSize) (F.bytes.length - (o + arHdrSize)), ?_⟩
    unfold namesHeader
    simp only [hmap]
    rw [if_neg hno, mapHeader, hpos, readAt_of_le _ hin, bind_ok, hstart, hmax, Nat.zero_add, headerIn,
      window_append_window]
    congr 3
    omega
  · have hyes : e.maximumSize < o ∨ e.maximumSize - o < arHdrSize := by omega
    unfold namesHeader
    simp only [hmap]
    rw [if_pos hyes]
  · have hwrap : wrap (o + arHdrSize) = o + arHdrSize := wrap_of_lt (by omega)
    unfold namesBytes
    simp only [hmap]
    rw [hpos, hwrap, hmax]
    by_cases hfit : o + arHdrSize + len ≤ F.bytes.length
    · rw [if_neg (by omega), if_pos hfit, Elf.mapRead, hmap]
      simp only
      rw [if_neg (by omega), readAt_of_le _ hfit, within_ok]
    · rw [if_pos (by omega), if_neg hfit]

/-- A header that is not there is not read as a whole. -/
theorem length_window_short {bs : List UInt8} {o : Nat} (hout : ¬ o + arHdrSize ≤ bs.length) :
    (window bs o arHdrSize).length ≠ arHdrSize := by
  rw [window, List.length_take, List.length_drop]
  unfold arHdrSize at hout ⊢
  omega

section Pread

variable (hmap : e.mapAddress = none) (hfd : e.fildes ≠ -1) (hstart : e.startOffset = 0)

include hmap hstart in
theorem namesPos_pread {o : Nat} (ho : o < 2 ^ 64) : e.namesPos o = o := by
  unfold Elf.namesPos
  rw [hmap, hstart, Nat.zero_add]
  exact wrap_of_lt ho

include hfd in
/-- What is read at an offset, whole or not. -/
theorem preadRetry_eq {o : Nat} (ho : o < 2 ^ 63) (len : Nat) :
    preadRetry env e.fildes len o = some (window (env.file e.fildes).bytes o len) := by
  unfold preadRetry
  rw [if_neg (by omega)]

include hmap hfd hstart in
theorem namesHeader_pread {o : Nat} (hin : o + arHdrSize ≤ (env.file e.fildes).bytes.length) (us : List Nat) :
    namesHeader env o ⟨e, us⟩ = .ok (some (headerIn (env.file e.fildes).bytes o)) ⟨e, us ++ [o]⟩ := by
  have hsmall := (env.file e.fildes).small
  unfold namesHeader
  simp only [hmap]
  rw [namesPos_pread hmap hstart (by omega), preadRetry_eq hfd (by omega)]
  simp only
  rw [if_pos (length_window hin)]
  rfl

include hmap hfd hstart in
/-- An archive that is all of a file and is not mapped. -/
theorem reads_pread : ReadsFrom env e (env.file e.fildes).bytes := by
  have hsmall := (env.file e.fildes).small
  refine ⟨(env.file e.fildes).small, fun o us hin => ⟨[], ?_⟩, fun o us ho hout => ?_, fun o len us hin => ?_⟩
  · rw [List.append_nil]
    exact namesHeader_pread hmap hfd hstart hin us
  · unfold namesHeader
    simp only [hmap]
    rw [namesPos_pread hmap hstart ho]
    rcases Nat.lt_or_ge o (2 ^ 63) with hlt | hge
    · rw [preadRetry_eq hfd hlt]
      simp only
      rw [if_neg (length_window_short (Nat.not_le_of_lt hout))]
    · unfold preadRetry
      rw [if_pos (.inr hge)]
  · unfold namesBytes
    simp only [hmap]
    rw [wrap_of_lt (by omega), namesPos_pread hmap hstart (by omega), preadRetry_eq hfd (by omega)]
    simp only
    by_cases hfit : o + arHdrSize + len ≤ (env.file e.fildes).bytes.length
    · rw [if_pos (length_window hfit), if_pos hfit]
    · rw [if_neg, if_neg hfit]
      rw [window, List.length_take, List.length_drop]
      omega

end Pread

/-! ## The search that is done -/

/-- What the search from `o` on, and the reading of the table, amount to. -/
def tableFrom (env : Env) (fuel o : Nat) (w : Walk) : ArCall (List UInt8) :=
  (findNames env fuel o w).bind fun entry w =>
  (namesBytes env entry.1 entry.2 w).bind fun bs w =>
  .ok (nulTerminate bs) (w.setAr { w.elf.ar with longNames := some (nulTerminate bs) })

theorem readLongNames_eq (w : Walk) : readLongNames env w = tableFrom env (2 ^ 64 + 1) sarmag w := rfl

/-- The call has read the headers `ps`, and has a table or says that there is none. -/
def Gives (x : ArCall (List UInt8)) (ps : List Nat) : Option (List UInt8) → Prop
  | some names => ∃ w, w.used = ps ∧ x = .ok names w
  | none => ∃ w, w.used = ps ∧ x = .err .INVALID_ARCHIVE w

/-- A header with a size that ends, and that is not negative unless it leads to no other header. -/
def Regular (A : List UInt8) (o : Nat) : Prop :=
  ∃ n, sizeIn A o = some n ∧ (¬ TableIn A o → n < 0 → A.length < entryEnd o (sizeT n) + arHdrSize)

/-- All headers that the search comes to are regular. -/
def Fine (A : List UInt8) : Prop := ∀ o, Member A o → o + arHdrSize ≤ A.length → Regular A o

/-- A size that is not negative leads to the next header. -/
theorem entryEnd_eq {o : Nat} {n : Int} (hin : o + arHdrSize ≤ A.length) (hsmall : A.length < 2 ^ 63) (hpos : 0 ≤ n)
    (hn : n < 2 ^ 63) : entryEnd o (sizeT n) = nextHeader o n ∧ nextHeader o n < 2 ^ 64 := by
  have hsize : sizeT n = n.toNat := by unfold sizeT; omega
  have hstep : wrap (n.toNat + 1) = n.toNat + 1 := wrap_of_lt (by omega)
  unfold entryEnd nextHeader
  rw [hsize, hstep]
  unfold wrap
  omega

/-- A number is a `long`. -/
theorem atol_bounds {s : List UInt8} {n : Int} (h : atol s = some n) : -2 ^ 63 ≤ n ∧ n < 2 ^ 63 := by
  unfold atol at h
  simp only at h
  split at h
  · cases h
  · split at h
    · obtain rfl := Option.some.inj h
      omega
    · obtain rfl := Option.some.inj h
      omega

theorem sizeIn_bounds {o : Nat} {n : Int} (h : sizeIn A o = some n) : -2 ^ 63 ≤ n ∧ n < 2 ^ 63 := by
  unfold sizeIn intField at h
  split at h
  · exact atol_bounds h
  · exact atol_bounds h

/-- One step of the search. -/
theorem findNames_step (hr : ReadsFrom env e A) {o : Nat} {n : Int} (hin : o + arHdrSize ≤ A.length)
    (hsize : sizeIn A o = some n) (fuel : Nat) (us : List Nat) : findNames env (fuel + 1) o ⟨e, us⟩ =
      if TableIn A o then .ok (o, sizeT n) ⟨e, us ++ [o]⟩ else findNames env fuel (entryEnd o (sizeT n)) ⟨e, us ++ [o]⟩ := by
  obtain ⟨more, hheader⟩ := hr.header o us hin
  have hlen : (headerIn A o).length = arHdrSize := length_window hin
  have hfield : intField (headerIn A o ++ more) 48 10 = some n :=
    intField_append (by rw [hlen]; decide) (by decide) hsize
  rw [findNames, hheader, bind_ok]
  simp only
  rw [hfield, window_append_left (by rw [hlen]; decide)]
  rfl

/-- The search gives the table, or says that there is none. -/
theorem search_gives (hr : ReadsFrom env e A) (hfine : Fine A) {o : Nat} {ps : List Nat} {r : Option (List UInt8)}
    (hs : Search A o ps r) : Member A o → o < 2 ^ 64 → ∀ fuel us, 0 < fuel → A.length < o + fuel →
    Gives (tableFrom env fuel o ⟨e, us⟩) (us ++ ps) r := by
  have hsmall := hr.small
  have hnone : ∀ o us fuel, o < 2 ^ 64 → A.length < o + arHdrSize → 0 < fuel →
      Gives (tableFrom env fuel o ⟨e, us⟩) us none := by
    intro o us fuel ho hout hfuel
    obtain ⟨fuel, rfl⟩ := Nat.exists_eq_add_one.mpr hfuel
    refine ⟨⟨e, us⟩, rfl, ?_⟩
    rw [tableFrom, findNames, hr.done o us ho hout]
    rfl
  induction hs with
  | done hout =>
    intro _ ho fuel us hfuel _
    rw [List.append_nil]
    exact hnone _ us fuel ho hout hfuel
  | @found o n hin hsize htable =>
    intro _ _ fuel us hfuel _
    obtain ⟨fuel, rfl⟩ := Nat.exists_eq_add_one.mpr hfuel
    have hbounds := sizeIn_bounds hsize
    rw [tableFrom, findNames_step hr hin hsize, if_pos htable, bind_ok, hr.bytes o _ _ hin]
    unfold tableAt
    by_cases hfit : 0 ≤ n ∧ o + arHdrSize + n.toNat ≤ A.length
    · have hn : sizeT n = n.toNat := by unfold sizeT; omega
      rw [if_pos hfit, hn, if_pos hfit.2]
      exact ⟨_, rfl, rfl⟩
    · have hout : ¬ o + arHdrSize + sizeT n ≤ A.length := by unfold sizeT; omega
      rw [if_neg hfit, if_neg hout]
      exact ⟨_, rfl, rfl⟩
  | @broken o hin hbad =>
    intro hm ho fuel us hfuel hroom
    obtain ⟨n, hsize, hreg⟩ := hfine o hm hin
    rcases hbad with hnosize | ⟨hno, m, hm', hneg⟩
    · rw [hsize] at hnosize
      cases hnosize
    · obtain rfl := Option.some.inj (hsize.symm.trans hm')
      obtain ⟨fuel, rfl⟩ := Nat.exists_eq_add_one.mpr hfuel
      rw [tableFrom, findNames_step hr hin hsize, if_neg hno]
      exact hnone _ (us ++ [o]) fuel (wrap_lt _) (hreg hno hneg) (by unfold arHdrSize at hin; omega)
  | @next o n ps r hin hsize hno hpos _ ih =>
    intro hm _ fuel us hfuel hroom
    obtain ⟨fuel, rfl⟩ := Nat.exists_eq_add_one.mpr hfuel
    obtain ⟨hend, hlt⟩ := entryEnd_eq hin hsmall hpos (sizeIn_bounds hsize).2
    have hstep : o + arHdrSize ≤ nextHeader o n := Nat.le_add_right _ _
    have hrest := ih (hm.next hin hsize hno hpos) hlt fuel (us ++ [o]) (by unfold arHdrSize at hin; omega)
      (by unfold arHdrSize at hstep; omega)
    rw [tableFrom, findNames_step hr hin hsize, if_neg hno, hend]
    rwa [List.append_assoc, List.singleton_append] at hrest

/-- The headers of a search that goes on are among those that are read. -/
theorem findNames_prefix (fuel : Nat) : ∀ (o : Nat) (w : Walk), (findNames env fuel o w).Ensures
    (fun _ w' => w.used <+: w'.used) (fun w' => w.used <+: w'.used) (fun _ => True) := by
  have hheader : ∀ (o : Nat) (w : Walk), (namesHeader env o w).Ensures (fun _ w' => w.used <+: w'.used)
      (fun w' => w.used <+: w'.used) (fun _ => True) := by
    intro o w
    have huse : ∀ pos, w.used <+: (w.use pos).used := fun pos => List.prefix_append _ _
    unfold namesHeader
    extract_lets e₁ pos
    split
    · split
      · exact List.prefix_refl _
      · refine ensures_bind (ensures_mono (ensures_readAt (E := fun w' => w.used <+: w'.used) (F := fun _ => True)
          trivial) (fun _ _ h => h.2) (fun _ h => h) fun _ h => h) fun _ w' h => ?_
        rw [h]
        exact huse _
    · split
      · split
        · exact huse _
        · exact List.prefix_refl _
      · exact List.prefix_refl _
  induction fuel with
  | zero => exact fun _ _ => trivial
  | succ fuel ih =>
    intro o w
    refine ensures_bind (hheader o w) fun hdr w' h => ?_
    cases hdr with
    | none => exact h
    | some hdr =>
      simp only
      split
      · trivial
      · split
        · exact h
        · exact ensures_mono (ih _ w') (fun _ _ h' => h.trans h') (fun _ h' => h.trans h') fun _ h => h

/-- A header that is read. -/
theorem findNames_header {o p : Nat} {us : List Nat} {bs : List UInt8}
    (hheader : namesHeader env o ⟨e, us⟩ = .ok (some bs) ⟨e, us ++ [p]⟩) (fuel : Nat) :
    (findNames env (fuel + 1) o ⟨e, us⟩).Ensures (fun _ w' => us ++ [p] <+: w'.used) (fun w' => us ++ [p] <+: w'.used)
      (fun _ => True) := by
  rw [findNames, hheader, bind_ok]
  simp only
  split
  · trivial
  · split
    · exact List.prefix_refl _
    · exact findNames_prefix fuel _ _

/-- The headers that the search has read are those of the call. -/
theorem Gives.used_prefix {fuel o : Nat} {w : Walk} {us ps : List Nat} {r : Option (List UInt8)}
    (hfind : (findNames env fuel o w).Ensures (fun _ w' => us <+: w'.used) (fun w' => us <+: w'.used) fun _ => True)
    (h : Gives (tableFrom env fuel o w) ps r) : us <+: ps := by
  have hbytes : ∀ (o len : Nat) (w : Walk), us <+: w.used → (namesBytes env o len w).Ensures
      (fun _ w' => us <+: w'.used) (fun w' => us <+: w'.used) (fun _ => True) := by
    intro o len w hw
    unfold namesBytes
    extract_lets e₁ pos
    split
    · split
      · exact hw
      · cases e₁.mapRead pos len with
        | ok bs e' => exact hw
        | err c e' => exact hw
        | stop f => trivial
    · split
      · split <;> exact hw
      · exact hw
  have hprefix : (tableFrom env fuel o w).Ensures (fun _ w' => us <+: w'.used) (fun w' => us <+: w'.used)
      (fun _ => True) := by
    refine ensures_bind hfind fun entry w₁ h₁ => ?_
    exact ensures_bind (hbytes entry.1 entry.2 w₁ h₁) fun bs w₂ h₂ => h₂
  cases r with
  | some names =>
    obtain ⟨w', rfl, hx⟩ := h
    rw [hx] at hprefix
    exact hprefix
  | none =>
    obtain ⟨w', rfl, hx⟩ := h
    rw [hx] at hprefix
    exact hprefix

theorem Gives.ne_stop {x : ArCall (List UInt8)} {ps : List Nat} {r : Option (List UInt8)} (h : Gives x ps r)
    (f : Fault) : x ≠ .stop f := by
  cases r with
  | some names =>
    obtain ⟨w', -, rfl⟩ := h
    exact nofun
  | none =>
    obtain ⟨w', -, rfl⟩ := h
    exact nofun

/-- What was read on the way to a member. -/
theorem member_path (hr : ReadsFrom env e A) {o : Nat} (hm : Member A o) : ∃ qs : List Nat, qs.length ≤ o ∧
    (∀ fuel us, tableFrom env (fuel + qs.length) sarmag ⟨e, us⟩ = tableFrom env fuel o ⟨e, us ++ qs⟩) ∧
    ∀ ps r, Search A o ps r → Search A sarmag (qs ++ ps) r := by
  induction hm with
  | start => exact ⟨[], Nat.zero_le _, fun fuel us => by rw [List.append_nil]; rfl, fun ps r h => h⟩
  | @next o n _ hin hsize hno hpos ih =>
    obtain ⟨qs, hlen, hrun, hsearch⟩ := ih
    obtain ⟨hend, -⟩ := entryEnd_eq hin hr.small hpos (sizeIn_bounds hsize).2
    refine ⟨qs ++ [o], ?_, fun fuel us => ?_, fun ps r h => ?_⟩
    · rw [List.length_append, List.length_singleton]
      unfold nextHeader arHdrSize
      omega
    · rw [List.length_append, List.length_singleton, ← Nat.add_assoc, Nat.add_right_comm, hrun]
      rw [tableFrom, findNames_step hr hin hsize, if_neg hno, hend, List.append_assoc]
      rfl
    · rw [List.append_assoc]
      exact hsearch _ _ (.next hin hsize hno hpos h)

/-- An archive that is not mapped is searched as it should be only if it is fine. -/
theorem fine_of_gives (hmap : e.mapAddress = none) (hfd : e.fildes ≠ -1) (hstart : e.startOffset = 0) {ps : List Nat}
    {r : Option (List UInt8)} (hs : Search (env.file e.fildes).bytes sarmag ps r) (h : Gives (readLongNames env ⟨e, []⟩) ps r) :
    Fine (env.file e.fildes).bytes := by
  intro o hm hin
  have hr : ReadsFrom env e (env.file e.fildes).bytes := reads_pread hmap hfd hstart
  have hsmall := hr.small
  obtain ⟨qs, hlen, hrun, hsearch⟩ := member_path hr hm
  obtain ⟨fuel, hfuel⟩ : ∃ fuel, 2 ^ 64 + 1 = fuel + 2 + qs.length := ⟨2 ^ 64 + 1 - 2 - qs.length, by omega⟩
  rw [readLongNames_eq, hfuel, hrun, List.nil_append] at h
  cases hsize : sizeIn (env.file e.fildes).bytes o with
  | none =>
    -- the number runs out of the header
    refine absurd ?_ (h.ne_stop .load)
    rw [tableFrom, findNames, namesHeader_pread hmap hfd hstart hin, bind_ok]
    simp only
    rw [show intField (headerIn (env.file e.fildes).bytes o) 48 10 = none from hsize]
    rfl
  | some n =>
    refine ⟨n, hsize, fun hno hneg => ?_⟩
    by_contra hread
    -- one more header is read than there are
    have hps := (hs.det (hsearch _ _ (.broken hin (.inr ⟨hno, n, hsize, hneg⟩)))).1
    rw [tableFrom, findNames_step hr hin hsize, if_neg hno] at h
    obtain ⟨more, hheader⟩ := hr.header _ (qs ++ [o]) (Nat.le_of_not_lt hread)
    have hmore := Gives.used_prefix (findNames_header hheader fuel) h
    have := hmore.length_le
    rw [hps, List.length_append] at this
    simp at this

end Reads

/-! ## Where the search is right -/

/-- A descriptor of the `m` bytes at `s`, which are mapped or read from the file. -/
structure ArchiveAt (env : Env) (F : Image) (s m : Nat) (e : Elf) : Prop where
  startOffset : e.startOffset = s
  maximumSize : e.maximumSize = m
  image : e.mapAddress = some F ∨ e.mapAddress = none ∧ e.fildes ≠ -1 ∧ env.file e.fildes = F

/-- In both modes exactly the headers of the archive at `s` are read, up to that of the table, and the result is the
table, or that there is none. -/
def SearchExact (F : Image) (s m : Nat) : Prop :=
  ∃ ps r, Search (window F.bytes s m) sarmag ps r ∧
    ∀ env e, ArchiveAt env F s m e → Gives (readLongNames env ⟨e, []⟩) (ps.map (s + ·)) r

theorem searchExact_whole (F : Image) : SearchExact F 0 F.bytes.length ↔ Fine F.bytes := by
  have hfd : (3 : Int) ≠ -1 := by decide
  have hzero : ∀ ps : List Nat, ps.map (0 + ·) = ps := fun ps => by simp
  unfold SearchExact
  rw [window_full]
  constructor
  · rintro ⟨ps, r, hs, hall⟩
    have hgives := hall (plainEnv F) (allocateElf 3 none 0 F.bytes.length .read none .ar)
      ⟨rfl, rfl, .inr ⟨rfl, hfd, rfl⟩⟩
    rw [hzero] at hgives
    exact @fine_of_gives (plainEnv F) _ rfl hfd rfl ps r hs hgives
  · intro hfine
    obtain ⟨ps, r, hs⟩ := Search.total F.bytes F.bytes.length sarmag (Nat.le_add_left _ _)
    refine ⟨ps, r, hs, fun env e ⟨hstart, hmax, himage⟩ => ?_⟩
    have hr : ReadsFrom env e F.bytes := by
      rcases himage with hmap | ⟨hmap, hfd, rfl⟩
      · exact reads_mapped hmap hstart hmax
      · exact reads_pread hmap hfd hstart
    have hroom : F.bytes.length < sarmag + (2 ^ 64 + 1) := lt_of_lt_of_le F.small (by decide)
    rw [readLongNames_eq, hzero]
    exact search_gives hr hfine hs .start (by decide) (2 ^ 64 + 1) [] (Nat.succ_pos _) hroom

/-- The first header that a mapped archive is searched for, which is that of the file. -/
theorem namesHeader_first {env : Env} {F : Image} {s m : Nat} {e : Elf} (he : ArchiveAt env F s m e)
    (hmap : e.mapAddress = some F) (hin : s + m ≤ F.bytes.length) :
    if sarmag + arHdrSize ≤ m then ∃ bs, namesHeader env sarmag ⟨e, []⟩ = .ok (some bs) ⟨e, [sarmag]⟩
    else namesHeader env sarmag ⟨e, []⟩ = .ok none ⟨e, []⟩ := by
  have hpos : e.namesPos sarmag = sarmag := by
    unfold Elf.namesPos
    rw [hmap]
    rfl
  unfold namesHeader
  simp only [hmap]
  rw [hpos, he.maximumSize]
  split
  · next hlong =>
    rw [if_neg (by omega), mapHeader, readAt_of_le _ (by omega)]
    exact ⟨_, rfl⟩
  · next hshort => rw [if_pos (by unfold sarmag at hshort ⊢; omega)]

/-- The first header that is read from the file. -/
theorem namesHeader_file {env : Env} {F : Image} {s m : Nat} {e : Elf} (he : ArchiveAt env F s m e)
    (hmap : e.mapAddress = none) (hin : s + m ≤ F.bytes.length) : namesHeader env sarmag ⟨e, []⟩ =
      if s + sarmag + arHdrSize ≤ F.bytes.length then .ok (some (window F.bytes (s + sarmag) arHdrSize)) ⟨e, [s + sarmag]⟩
      else .ok none ⟨e, []⟩ := by
  have hsmall := F.small
  obtain ⟨hfd, rfl⟩ : e.fildes ≠ -1 ∧ env.file e.fildes = F := by
    rcases he.image with h | ⟨-, hfd, hfile⟩
    · rw [hmap] at h
      cases h
    · exact ⟨hfd, hfile⟩
  have hpos : e.namesPos sarmag = s + sarmag := by
    unfold Elf.namesPos
    rw [hmap, he.startOffset]
    exact wrap_of_lt (by unfold sarmag; omega)
  unfold namesHeader
  simp only [hmap]
  rw [hpos]
  by_cases hfile : s + sarmag + arHdrSize ≤ (env.file e.fildes).bytes.length
  · rw [if_pos hfile, preadRetry_eq hfd (by omega)]
    simp only
    rw [if_pos (length_window hfile)]
    rfl
  · rw [if_neg hfile]
    rcases Nat.lt_or_ge (s + sarmag) (2 ^ 63) with hlt | hge
    · rw [preadRetry_eq hfd hlt]
      simp only
      rw [if_neg (length_window_short hfile)]
    · unfold preadRetry
      rw [if_pos (.inr hge)]

theorem searchExact_member {F : Image} {s m : Nat} (hin : s + m ≤ F.bytes.length) (hs : s ≠ 0) :
    SearchExact F s m ↔ m < sarmag + arHdrSize ∧ F.bytes.length < s + sarmag + arHdrSize := by
  have hsmall := F.small
  have hfd : (3 : Int) ≠ -1 := by decide
  have hlen : (window F.bytes s m).length = m := length_window hin
  have hhdr : sarmag + arHdrSize = 68 := rfl
  constructor
  · rintro ⟨ps, r, hsearch, hall⟩
    -- a header that is read at `p` is the first of the search
    have hfirst : ∀ {env : Env} {e : Elf} {p : Nat} {bs : List UInt8}, ArchiveAt env F s m e →
        namesHeader env sarmag ⟨e, []⟩ = .ok (some bs) ⟨e, [p]⟩ → [p] <+: ps.map (s + ·) := by
      intro env e p bs he hheader
      have hgives := hall env e he
      rw [readLongNames_eq] at hgives
      exact Gives.used_prefix (findNames_header hheader (2 ^ 64)) hgives
    have hshort : m < sarmag + arHdrSize := by
      by_contra hlong
      -- where it is mapped the header at 8 of the file is read
      have he : ArchiveAt (plainEnv F) F s m (allocateElf 3 (some F) s m .readMmap none .ar) := ⟨rfl, rfl, .inl rfl⟩
      have hheader := namesHeader_first he rfl hin
      rw [if_pos (Nat.le_of_not_lt hlong)] at hheader
      obtain ⟨bs, hbs⟩ := hheader
      have hused := hfirst he hbs
      cases hsearch with
      | done hend => omega
      | found _ _ _ =>
        simp at hused
        omega
      | broken _ _ =>
        simp at hused
        omega
      | next _ _ _ _ _ =>
        simp at hused
        omega
    refine ⟨hshort, ?_⟩
    by_contra hfile
    obtain ⟨rfl, -⟩ := hsearch.det (.done (by rw [hlen]; exact hshort))
    have he : ArchiveAt (plainEnv F) F s m (allocateElf 3 none s m .read none .ar) := ⟨rfl, rfl, .inr ⟨rfl, hfd, rfl⟩⟩
    have hheader := namesHeader_file he rfl hin
    rw [if_pos (Nat.le_of_not_lt hfile)] at hheader
    have hused := hfirst he hheader
    simp at hused
  · rintro ⟨hshort, hfile⟩
    refine ⟨[], none, .done (by rw [hlen]; exact hshort), fun env e he => ⟨⟨e, []⟩, rfl, ?_⟩⟩
    have hnone : namesHeader env sarmag ⟨e, []⟩ = .ok none ⟨e, []⟩ := by
      rcases he.image with hmap | ⟨hmap, -, -⟩
      · have hheader := namesHeader_first he hmap hin
        rwa [if_neg (Nat.not_le_of_lt hshort)] at hheader
      · have hheader := namesHeader_file he hmap hin
        rwa [if_neg (Nat.not_le_of_lt hfile)] at hheader
    rw [readLongNames, findNames, hnone]
    rfl

/-- The search is right in an archive that is all of its file and whose sizes are fine, and of the others in those with
no room for a header, neither in the archive nor in the file behind its start. -/
theorem searchExact_iff (F : Image) {s m : Nat} (hin : s + m ≤ F.bytes.length) (hwhole : s = 0 → m = F.bytes.length) :
    SearchExact F s m ↔
      s = 0 ∧ Fine F.bytes ∨ s ≠ 0 ∧ m < sarmag + arHdrSize ∧ F.bytes.length < s + sarmag + arHdrSize := by
  by_cases hs : s = 0
  · subst hs
    rw [hwhole rfl, searchExact_whole]
    simp
  · rw [searchExact_member hin hs]
    simp [hs]

/-- An archive with a table of the name `a`, which is the only member of another archive. -/
def nestedNames : Image := .ofBytes
  (armag ++ rawHeader [0x62, 0x2F] [0x37, 0x32] ++ (armag ++ rawHeader namesName [0x33] ++ [0x61, 0x2F, 0x0A, 0x0A]))
  (by decide +kernel)

theorem searchExact_iff_nestedNames : ¬ SearchExact nestedNames 68 72 := by
  rw [searchExact_iff nestedNames (by decide +kernel) (by decide)]
  rintro (⟨hzero, -⟩ | ⟨-, hsmall, -⟩)
  · exact absurd hzero (by decide)
  · exact absurd hsmall (by decide)

/-- An archive whose member has the size -60: the header behind it is its own. -/
def loopArchive : Image := .ofBytes (armag ++ rawHeader [0x61, 0x2F] [0x2D, 0x36, 0x30]) (by decide +kernel)

/-- The search for a table in that archive never ends. And where the archive with the table is mapped, its headers
are looked for in the archive around it. -/
theorem not_searchExact_loop :
    (¬ SearchExact loopArchive 0 68 ∧ ∀ env e, ArchiveAt env loopArchive 0 68 e →
      readLongNames env ⟨e, []⟩ = .stop .divergence) ∧
    ∃ w, Search (window nestedNames.bytes 68 72) sarmag [8] (some [0x61, 0, 0]) ∧
      readLongNames (plainEnv nestedNames) ⟨allocateElf 3 (some nestedNames) 68 72 .readMmap none .ar, []⟩ =
        .err .INVALID_ARCHIVE w ∧ w.used = [8] := by
  have hlength : loopArchive.bytes.length = 68 := by decide +kernel
  have hin : sarmag + arHdrSize ≤ loopArchive.bytes.length := by rw [hlength]; decide
  have hsize : sizeIn loopArchive.bytes sarmag = some (-60) := by decide +kernel
  have hno : ¬ TableIn loopArchive.bytes sarmag := by decide +kernel
  refine ⟨⟨fun hexact => ?_, fun env e he => ?_⟩, ?_⟩
  · rw [← hlength, searchExact_whole] at hexact
    obtain ⟨n, hn, hreg⟩ := hexact sarmag .start hin
    obtain rfl := Option.some.inj (hsize.symm.trans hn)
    exact absurd (hreg hno (by decide)) (by rw [hlength]; decide)
  · have hr : ReadsFrom env e loopArchive.bytes := by
      rcases he.image with hmap | ⟨hmap, hfd, hfile⟩
      · exact reads_mapped hmap he.startOffset (he.maximumSize.trans hlength.symm)
      · exact hfile ▸ reads_pread hmap hfd he.startOffset
    have hloop : ∀ fuel us, findNames env fuel sarmag ⟨e, us⟩ = .stop .divergence := by
      intro fuel
      induction fuel with
      | zero => exact fun _ => rfl
      | succ fuel ih =>
        intro us
        rw [findNames_step hr hin hsize, if_neg hno]
        exact ih _
    rw [readLongNames, hloop]
    rfl
  · have hfails : (readLongNames (plainEnv nestedNames)
        ⟨allocateElf 3 (some nestedNames) 68 72 .readMmap none .ar, []⟩).fails
          (fun c w => decide (c = .INVALID_ARCHIVE ∧ w.used = [8])) = true := by decide +kernel
    obtain ⟨c, w, hread, hw⟩ := exists_of_fails hfails
    obtain ⟨rfl, hused⟩ := of_decide_eq_true hw
    have hsearch : Search (window nestedNames.bytes 68 72) sarmag [8]
        (tableAt (window nestedNames.bytes 68 72) (sarmag + arHdrSize) 3) :=
      .found (by decide +kernel) (by decide +kernel) (by decide +kernel)
    have htable : tableAt (window nestedNames.bytes 68 72) (sarmag + arHdrSize) 3 = some [0x61, 0, 0] := by
      decide +kernel
    exact ⟨w, htable ▸ hsearch, hread, hused⟩

end LibElf.Elfutils
