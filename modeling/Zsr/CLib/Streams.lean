import Zsr.CLib.Memory
import Zsr.CLib.Simulate

/-!
# Streams

What is still to be read of an open stream is a block of a heap, so that a stream that was
closed is neither read nor closed again, and only so many streams are open at once. A program
that closes what it opens acts like one that knows only how many streams are open.
-/

namespace CLib

variable {κ ι σ α β : Type}

/-- A program on the streams; `none` is undefined behaviour or `exit`. -/
abbrev StreamM (κ : Type) := StateT (Heap κ) Option

/-- A program that knows how many streams are open. -/
abbrev CountM := StateT ℕ Option

/-- What can be opened while `n` streams are open. -/
def avail (limit n : ℕ) (file : Option α) : Option α := if n < limit then file else none

def openStream (limit : ℕ) (file : Option κ) : StreamM κ (Option ℕ) := fun fs =>
  match avail limit fs.liveCount file with
  | none => some (none, fs)
  | some content => some (some fs.fresh, fs.malloc (some content))

/-- The next item of a stream, cut off by `step`; `none` at its end. -/
def nextItem (step : κ → Option (ι × κ)) (fp : ℕ) : StreamM κ (Option ι) := fun fs => do
  let content ← fs.val? fp
  match step content with
  | none => some (none, fs)
  | some (item, rest) => (fs.update fp fun _ => rest).map fun fs => (some item, fs)

def closeStream (fp : ℕ) : StreamM κ Unit := fun fs => (fs.free fp).map fun fs => ((), fs)

/-- A loop over the items of a stream; `fuel` bounds the number of turns. -/
def itemLoop (step : κ → Option (ι × κ)) (fp : ℕ) (body : ι → σ → StreamM κ (ForInStep σ)) :
    ℕ → σ → StreamM κ σ
  | 0, s => pure s
  | fuel + 1, s => do
    match ← nextItem step fp with
    | none => pure s
    | some item =>
      match ← body item s with
      | .done s => pure s
      | .yield s => itemLoop step fp body fuel s

/-- The loop, with fuel for all that the stream has. -/
def whileItems (size : κ → ℕ) (step : κ → Option (ι × κ)) (fp : ℕ)
    (body : ι → σ → StreamM κ (ForInStep σ)) (s : σ) : StreamM κ σ := fun fs => do
  let content ← fs.val? fp
  itemLoop step fp body (size content) s fs

/-- The items that a loop meets when nothing ends it earlier. -/
def items (step : κ → Option (ι × κ)) : ℕ → κ → List ι
  | 0, _ => []
  | fuel + 1, content =>
    match step content with
    | none => []
    | some (item, rest) => item :: items step fuel rest

/-- `if ((fp = fopen(..)) == NULL) other else use fp`. -/
def ifOpened (limit : ℕ) (file : Option κ) (other : StreamM κ β) (use : ℕ → StreamM κ β) :
    StreamM κ β := do
  (← openStream limit file).elim other use

/-- As many streams are open afterwards as before. -/
def balanced (f : ℕ → Option α) : CountM α := fun n => (f n).map fun a => (a, n)

theorem balanced_bind (f : ℕ → Option α) (g : α → ℕ → Option β) :
    (balanced f >>= fun a => balanced (g a)) = balanced fun n => (f n).bind fun a => g a n := by
  funext n
  show ((f n).map fun a => (a, n)).bind (fun x => (g x.1 x.2).map fun b => (b, x.2)) =
    ((f n).bind fun a => g a n).map fun b => (b, n)
  cases f n <;> rfl

theorem forIn_balanced (l : List ι) (s : σ) (f : ι → σ → ℕ → Option (ForInStep σ)) :
    (forIn l s fun i s => balanced (f i s)) =
      balanced fun n => forIn l s fun i s => f i s n := by
  induction l generalizing s with
  | nil => rfl
  | cons i l ih =>
    funext n
    simp only [List.forIn_cons]
    show ((f i s n).map fun r => (r, n)).bind _ = ((f i s n).bind _).map _
    cases f i s n with
    | none => rfl
    | some r =>
      cases r with
      | done s => rfl
      | yield s => exact congrFun (ih s) n

/-- Opening, and the program behind it, when only the number is known. -/
def countOpened (limit : ℕ) (file : Option κ) (other : CountM β) (use : κ → CountM β) :
    CountM β := fun n =>
  (avail limit n file).elim (other n) fun content => use content (n + 1)

def countClosed : CountM Unit := fun n => some ((), n - 1)

/-- The streams that are open, but for those in `own`, are as they were. -/
def KeptBut (own : ℕ → Prop) (fs fs' : Heap κ) : Prop :=
  ∀ x, fs.Live x → ¬own x → fs'.cell x = fs.cell x

theorem KeptBut.refl (own : ℕ → Prop) (fs : Heap κ) : KeptBut own fs fs := fun _ _ _ => rfl

theorem KeptBut.live {own : ℕ → Prop} {fs fs' : Heap κ} (h : KeptBut own fs fs') {x : ℕ}
    (hx : fs.Live x) (ho : ¬own x) : fs'.Live x := by
  unfold Heap.Live
  rw [h x hx ho]
  exact hx

theorem KeptBut.trans {own : ℕ → Prop} {fs fs1 fs2 : Heap κ} (h1 : KeptBut own fs fs1)
    (h2 : KeptBut own fs1 fs2) : KeptBut own fs fs2 := fun x hx ho =>
  (h2 x (h1.live hx ho) ho).trans (h1 x hx ho)

theorem KeptBut.mono {own own' : ℕ → Prop} {fs fs' : Heap κ} (h : KeptBut own fs fs')
    (ho : ∀ x, own x → own' x) : KeptBut own' fs fs' :=
  fun x hx hno => h x hx fun hown => hno (ho x hown)

/-- A program and its count come to the same result. -/
structure Ends (own : ℕ → Prop) (fs : Heap κ) (x : α × Heap κ) (y : α × ℕ) : Prop where
  result : x.1 = y.1
  count : x.2.liveCount = y.2
  kept : KeptBut own fs x.2

/-- What a program does with the streams is known from how many are open. -/
def Counts (p : StreamM κ α) (q : CountM α) : Prop :=
  ∀ fs, Option.Rel (Ends (fun _ => False) fs) (p fs) (q fs.liveCount)

/-- The program owns the stream `fp`, and leaves it open. -/
def CountsOwning (fp : ℕ) (content : κ) (p : StreamM κ α) (q : CountM α) : Prop :=
  ∀ fs, fs.val? fp = some content →
    Option.Rel (fun x y => Ends (· = fp) fs x y ∧ x.2.Live fp) (p fs) (q fs.liveCount)

/-- The program owns the stream `fp`, and may close it. -/
def CountsUsing (fp : ℕ) (content : κ) (p : StreamM κ α) (q : CountM α) : Prop :=
  ∀ fs, fs.val? fp = some content → Option.Rel (Ends (· = fp) fs) (p fs) (q fs.liveCount)

section Rules

variable {p : StreamM κ α} {q : CountM α} {f : α → StreamM κ β} {g : α → CountM β} {fp : ℕ}
  {content : κ}

theorem Counts.pure (a : α) : Counts (pure a : StreamM κ α) (balanced fun _ => some a) :=
  fun fs => .some ⟨rfl, rfl, .refl _ fs⟩

theorem Counts.lift (o : Option α) : Counts (StateT.lift o : StreamM κ α)
    (balanced fun _ => o) := by
  intro fs
  show Option.Rel _ (o.bind fun a => some (a, fs)) (o.map fun a => (a, fs.liveCount))
  cases o with
  | none => exact .none
  | some a => exact .some ⟨rfl, rfl, .refl _ fs⟩

theorem Counts.congr {f g : ℕ → Option α} (hp : Counts p (balanced f)) (h : ∀ n, f n = g n) :
    Counts p (balanced g) := by
  rwa [← funext h]

theorem Counts.bind (hp : Counts p q) (hf : ∀ a, Counts (f a) (g a)) :
    Counts (p >>= f) (q >>= g) := by
  intro fs
  apply rel_bind (hp fs)
  rintro ⟨a, fs1⟩ ⟨b, n⟩ ⟨rfl, rfl, hkept⟩
  exact rel_mono (hf a fs1) fun x y h => ⟨h.result, h.count, hkept.trans h.kept⟩

theorem CountsOwning.bind (hp : CountsOwning fp content p q) (hf : ∀ a, Counts (f a) (g a)) :
    CountsOwning fp content (p >>= f) (q >>= g) := by
  intro fs hfp
  apply rel_bind (hp fs hfp)
  rintro ⟨a, fs1⟩ ⟨b, n⟩ ⟨⟨rfl, rfl, hkept⟩, hlive⟩
  refine rel_mono (hf a fs1) fun x y h => ⟨⟨h.result, h.count, hkept.trans ?_⟩, ?_⟩
  · exact h.kept.mono fun _ hx => hx.elim
  · exact h.kept.live hlive not_false

theorem CountsOwning.using (hp : CountsOwning fp content p q) : CountsUsing fp content p q :=
  fun fs hfp => rel_mono (hp fs hfp) fun _ _ h => h.1

theorem CountsOwning.close (hp : CountsOwning fp content p q) (hf : ∀ a, Counts (f a) (g a)) :
    CountsUsing fp content (p >>= fun a => closeStream fp >>= fun _ => f a)
      (q >>= fun a => countClosed >>= fun _ => g a) := by
  intro fs hfp
  apply rel_bind (hp fs hfp)
  rintro ⟨a, fs1⟩ ⟨b, n⟩ ⟨⟨rfl, rfl, hkept⟩, hlive⟩
  have hlive : fs1.Live fp := hlive
  show Option.Rel _ (((fs1.free fp).map fun fs => ((), fs)).bind fun x => f a x.2)
    (g a (fs1.liveCount - 1))
  rw [Heap.free_of_live hlive, Option.map_some, Option.bind_some,
    ← Heap.liveCount_release fs1 fp hlive]
  refine rel_mono (hf a _) fun x y h => ⟨h.result, h.count, fun z hz hne => ?_⟩
  have hcell := fs1.release_cell_of_ne fp hlive hne
  have hz1 : (fs1.release fp hlive).Live z := (fs1.release_live fp z hlive).mpr
    ⟨hne, hkept.live hz hne⟩
  exact (h.kept z hz1 not_false).trans (hcell.trans (hkept z hz hne))

variable {τ : Type} {limit : ℕ} {file : Option τ} {c : τ → κ}

theorem avail_map (n : ℕ) : avail limit n (file.map c) = (avail limit n file).map c := by
  unfold avail
  split <;> rfl

theorem Counts.ifOpened {other : StreamM κ β} {other' : CountM β} {use : ℕ → StreamM κ β}
    {use' : τ → CountM β} (hother : Counts other other')
    (huse : ∀ fp t, CountsUsing fp (c t) (use fp) (use' t)) :
    Counts (ifOpened limit (file.map c) other use) (countOpened limit file other' use') := by
  intro fs
  have hrun : CLib.ifOpened limit (file.map c) other use fs =
      (avail limit fs.liveCount file).elim (other fs) fun t =>
        use fs.fresh (fs.malloc (some (c t))) := by
    unfold CLib.ifOpened
    show (openStream limit (file.map c) fs).bind _ = _
    unfold openStream
    rw [avail_map]
    cases avail limit fs.liveCount file <;> rfl
  rw [hrun, countOpened]
  cases avail limit fs.liveCount file with
  | none => exact hother fs
  | some t =>
    have hval : (fs.malloc (some (c t))).val? fs.fresh = some (c t) := by
      rw [Heap.val?_malloc, if_pos rfl]
    have hrel := huse fs.fresh t (fs.malloc (some (c t))) hval
    rw [Heap.liveCount_malloc] at hrel
    refine rel_mono hrel fun x y h => ⟨h.result, h.count, fun z hz _ => ?_⟩
    have hne : z ≠ fs.fresh := hz.lt.ne
    have hz1 : (fs.malloc (some (c t))).Live z := (fs.malloc_live z _).mpr (.inr hz)
    exact (h.kept z hz1 hne).trans (fs.malloc_cell_of_ne _ hne)

theorem Counts.bind_balanced {f : ℕ → Option α} {k : α → StreamM κ β} {g : α → ℕ → Option β}
    (hp : Counts p (balanced f)) (hk : ∀ a, Counts (k a) (balanced (g a))) :
    Counts (p >>= k) (balanced fun n => (f n).bind fun a => g a n) := by
  rw [← balanced_bind]
  exact hp.bind hk

theorem Counts.closing {other : StreamM κ β} {f0 : ℕ → Option β} {use : ℕ → StreamM κ α}
    {f : τ → ℕ → Option α} {rest : α → StreamM κ β} {g : α → ℕ → Option β}
    (hother : Counts other (balanced f0))
    (huse : ∀ fp t, CountsOwning fp (c t) (use fp) (balanced (f t)))
    (hrest : ∀ a, Counts (rest a) (balanced (g a))) :
    Counts (CLib.ifOpened limit (file.map c) other fun fp =>
        use fp >>= fun a => closeStream fp >>= fun _ => rest a)
      (balanced fun n => (avail limit n file).elim (f0 n) fun t =>
        (f t (n + 1)).bind fun a => g a n) := by
  convert Counts.ifOpened hother fun fp t => (huse fp t).close hrest using 1
  funext n
  rw [balanced, countOpened]
  cases avail limit n file with
  | none => rfl
  | some t =>
    show ((f t (n + 1)).bind fun a => g a n).map (fun b => (b, n)) =
      ((f t (n + 1)).map fun a => (a, n + 1)).bind fun x => (g x.1 (x.2 - 1)).map _
    cases f t (n + 1) <;> rfl

theorem Counts.foldlM {f : σ → ι → StreamM κ σ} {g : σ → ι → CountM σ}
    (h : ∀ s i, Counts (f s i) (g s i)) (l : List ι) (s : σ) :
    Counts (l.foldlM f s) (l.foldlM g s) := by
  induction l generalizing s with
  | nil => exact .pure s
  | cons i l ih => exact (h s i).bind ih

end Rules

section Loop

variable {step : κ → Option (ι × κ)} {fp : ℕ} {content : κ}

theorem nextItem_run {fs : Heap κ} (hfp : fs.val? fp = some content) :
    nextItem step fp fs = some ((step content).elim (none, fs) fun x =>
      (some x.1, fs.write fp fun c => { c with val := c.val.map fun _ => x.2 })) := by
  have hlive := Heap.val?_eq_some_live hfp
  simp only [nextItem, hfp, Option.bind_eq_bind, Option.bind_some]
  cases step content with
  | none => rfl
  | some x => exact congrArg (Option.map _) (Heap.modify_of_live hlive _)

theorem ends_write {fs : Heap κ} (a : α) (hfp : fs.Live fp) (f : Cell κ → Cell κ) :
    Ends (· = fp) fs (a, fs.write fp f) (a, fs.liveCount) ∧ (fs.write fp f).Live fp :=
  ⟨⟨rfl, Heap.liveCount_write fs fp f, fun _ _ hne => if_neg hne⟩, (fs.write_live fp fp f).mpr hfp⟩

theorem CountsOwning.next (step : κ → Option (ι × κ)) (fp : ℕ) (content : κ) :
    CountsOwning fp content (nextItem step fp)
      (balanced fun _ => some ((step content).map Prod.fst)) := by
  intro fs hfp
  have hlive := Heap.val?_eq_some_live hfp
  rw [nextItem_run hfp]
  apply Option.Rel.some
  cases step content with
  | none => exact ⟨⟨rfl, rfl, .refl _ fs⟩, hlive⟩
  | some x => exact ends_write _ hlive _

variable {body : ι → σ → StreamM κ (ForInStep σ)} {turn : ι → σ → CountM (ForInStep σ)}

theorem CountsOwning.itemLoop (hbody : ∀ i s, Counts (body i s) (turn i s)) (fuel : ℕ) (s : σ) :
    CountsOwning fp content (itemLoop step fp body fuel s)
      (forIn (items step fuel content) s turn) := by
  induction fuel generalizing content s with
  | zero => exact fun fs hfp => .some ⟨⟨rfl, rfl, .refl _ fs⟩, Heap.val?_eq_some_live hfp⟩
  | succ fuel ih =>
    intro fs hfp
    have hlive := Heap.val?_eq_some_live hfp
    have hnext : nextItem step fp fs = _ := nextItem_run hfp
    show Option.Rel _ ((nextItem step fp fs).bind _) _
    rw [hnext, items]
    cases step content with
    | none => exact .some ⟨⟨rfl, rfl, .refl _ fs⟩, hlive⟩
    | some x =>
      obtain ⟨i, rest⟩ := x
      let fs1 := fs.write fp fun c => { c with val := c.val.map fun _ => rest }
      obtain ⟨⟨-, hcount, hkept⟩, hlive1⟩ := ends_write (some i) hlive
        (fun c : Cell κ => { c with val := c.val.map fun _ => rest })
      have hval : fs1.val? fp = some rest := by
        rw [Heap.val?_write_val, if_pos rfl, hfp, Option.map_some]
      have hrel := hbody i s fs1
      rw [show fs1.liveCount = fs.liveCount from hcount] at hrel
      rw [List.forIn_cons]
      apply rel_bind hrel
      rintro ⟨r, fs2⟩ ⟨r', n⟩ ⟨rfl, rfl, hkept2⟩
      have hkept' : KeptBut (· = fp) fs fs2 := hkept.trans (hkept2.mono fun _ hx => hx.elim)
      cases r with
      | done s' => exact .some ⟨⟨rfl, rfl, hkept'⟩, hkept2.live hlive1 not_false⟩
      | yield s' =>
        have hval2 : fs2.val? fp = some rest := by
          rw [Heap.val?, hkept2 fp hlive1 not_false]
          exact hval
        exact rel_mono (ih s' fs2 hval2) fun x y h =>
          ⟨⟨h.1.result, h.1.count, hkept'.trans h.1.kept⟩, h.2⟩

theorem CountsOwning.whileItems {size : κ → ℕ} (hbody : ∀ i s, Counts (body i s) (turn i s))
    (s : σ) : CountsOwning fp content (whileItems size step fp body s)
      (forIn (items step (size content) content) s turn) := by
  intro fs hfp
  have hrun : CLib.whileItems size step fp body s fs =
      CLib.itemLoop step fp body (size content) s fs := by
    rw [CLib.whileItems, hfp]
    rfl
  rw [hrun]
  exact CountsOwning.itemLoop hbody (size content) s fs hfp

theorem CountsOwning.whileBalanced {size : κ → ℕ} {f : ι → σ → ℕ → Option (ForInStep σ)}
    (hbody : ∀ i s, Counts (body i s) (balanced (f i s))) (s : σ) :
    CountsOwning fp content (CLib.whileItems size step fp body s)
      (balanced fun n => forIn (items step (size content) content) s fun i s => f i s n) := by
  rw [← forIn_balanced]
  exact CountsOwning.whileItems hbody s

end Loop

def AllOpen (P : κ → Prop) (fs : Heap κ) : Prop :=
  ∀ fp, fs.Live fp → ∃ content, fs.val? fp = some content ∧ P content

def KeepsOpen (P : κ → Prop) (p : StreamM κ α) : Prop :=
  ∀ fs x, AllOpen P fs → p fs = some x → AllOpen P x.2

namespace KeepsOpen

variable {P : κ → Prop} {p : StreamM κ α} {f : α → StreamM κ β} {step : κ → Option (ι × κ)}
  {body : ι → σ → StreamM κ (ForInStep σ)}

theorem pure (a : α) : KeepsOpen P (pure a : StreamM κ α) := by
  intro fs x hall hx
  obtain rfl := Option.some.inj hx
  exact hall

theorem lift (o : Option α) : KeepsOpen P (StateT.lift o : StreamM κ α) := by
  intro fs x hall hx
  obtain ⟨a, -, hx⟩ := Option.bind_eq_some_iff.mp hx
  obtain rfl := Option.some.inj hx
  exact hall

theorem bind (hp : KeepsOpen P p) (hf : ∀ a, KeepsOpen P (f a)) : KeepsOpen P (p >>= f) := by
  intro fs x hall hx
  obtain ⟨y, hy, hx⟩ := Option.bind_eq_some_iff.mp hx
  exact hf y.1 y.2 x (hp fs y hall hy) hx

theorem foldlM {f : σ → ι → StreamM κ σ} (h : ∀ s i, KeepsOpen P (f s i)) (l : List ι) (s : σ) :
    KeepsOpen P (l.foldlM f s) := by
  induction l generalizing s with
  | nil => exact .pure s
  | cons i l ih => exact (h s i).bind ih

theorem of_balanced {g : ℕ → Option α} (hp : Counts p (balanced g)) : KeepsOpen P p := by
  intro fs x hall hx fp hlive
  have hrel := hp fs
  rw [hx, balanced] at hrel
  cases hg : g fs.liveCount with
  | none =>
    rw [hg] at hrel
    cases hrel
  | some a =>
    rw [hg, Option.map_some] at hrel
    obtain ⟨hend⟩ := hrel
    have hold : fs.Live fp := Heap.live_of_liveCount_le
      (fun a ha => hend.kept.live ha not_false) hend.count.le hlive
    obtain ⟨content, hval, hP⟩ := hall fp hold
    refine ⟨content, ?_, hP⟩
    rw [← hval, Heap.val?, Heap.val?, hend.kept fp hold not_false]

theorem ifOpened {limit : ℕ} {file : Option κ} {other : StreamM κ β} {use : ℕ → StreamM κ β}
    (hfile : ∀ content, file = some content → P content) (hother : KeepsOpen P other)
    (huse : ∀ fp, KeepsOpen P (use fp)) : KeepsOpen P (ifOpened limit file other use) := by
  refine KeepsOpen.bind (fun fs x hall hx => ?_) fun fp => ?_
  · unfold openStream avail at hx
    split at hx
    · obtain rfl := Option.some.inj hx
      exact hall
    · next content hcontent =>
      obtain rfl := Option.some.inj hx
      have hP : P content := by
        split at hcontent
        · exact hfile content hcontent
        · cases hcontent
      intro fp hlive
      dsimp only at hlive ⊢
      rw [Heap.val?_malloc]
      split
      · exact ⟨content, rfl, hP⟩
      · next hne => exact hall fp (((fs.malloc_live fp _).mp hlive).resolve_left hne)
  · cases fp with
    | none => exact hother
    | some fp => exact huse fp

theorem nextItem (hstep : ∀ c i rest, step c = some (i, rest) → P c → P rest) (fp : ℕ) :
    KeepsOpen P (nextItem step fp) := by
  intro fs x hall hx
  obtain ⟨c, hc, hx⟩ := Option.bind_eq_some_iff.mp hx
  have hrun : CLib.nextItem step fp fs = _ := nextItem_run hc
  have hx' : CLib.nextItem step fp fs = some x := Option.bind_eq_some_iff.mpr ⟨c, hc, hx⟩
  obtain rfl := Option.some.inj (hrun.symm.trans hx')
  cases hs : step c with
  | none => exact hall
  | some y =>
    intro fp' hlive
    show ∃ content, (fs.write fp _).val? fp' = _ ∧ _
    obtain ⟨content, hval, hP⟩ := hall fp' ((fs.write_live fp fp' _).mp hlive)
    rw [Heap.val?_write_val]
    split
    · next heq =>
      subst heq
      obtain rfl := Option.some.inj (hc.symm.trans hval)
      exact ⟨y.2, by rw [hval]; rfl, hstep c y.1 y.2 hs hP⟩
    · exact ⟨content, hval, hP⟩

theorem itemLoop (hstep : ∀ c i rest, step c = some (i, rest) → P c → P rest)
    (hbody : ∀ i s, KeepsOpen P (body i s)) (fp fuel : ℕ) (s : σ) :
    KeepsOpen P (itemLoop step fp body fuel s) := by
  induction fuel generalizing s with
  | zero => exact .pure s
  | succ fuel ih =>
    refine (KeepsOpen.nextItem hstep fp).bind fun item => ?_
    cases item with
    | none => exact .pure s
    | some i =>
      refine (hbody i s).bind fun r => ?_
      cases r with
      | done s' => exact .pure s'
      | yield s' => exact ih s'

theorem whileItems {size : κ → ℕ} (hstep : ∀ c i rest, step c = some (i, rest) → P c → P rest)
    (hbody : ∀ i s, KeepsOpen P (body i s)) (fp : ℕ) (s : σ) :
    KeepsOpen P (whileItems size step fp body s) := by
  intro fs x hall hx
  obtain ⟨c, -, hx⟩ := Option.bind_eq_some_iff.mp hx
  exact KeepsOpen.itemLoop hstep hbody fp (size c) s fs x hall hx

end KeepsOpen

end CLib
