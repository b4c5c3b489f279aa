import Packed.View
import Packed.Proofs.Field
import Packed.Proofs.Text.Tokens

namespace Packed

open TextStream

namespace Error

def placed : List (Nat → Error) := [unexpectedToken, invalidNumber, unknownName, unknownField]

/-- Two errors are one, up to the place of a token which has the same index in both texts. -/
inductive SameAt (s t : TextStream) : Error → Error → Prop
  | unplaced {e : Error} (h : ∀ c ∈ placed, ∀ p, e ≠ c p) : SameAt s t e e
  | placed {c : Nat → Error} {i : Nat} {a b : Token} (hc : c ∈ placed)
      (ha : s.tokens[i]? = some a) (hb : t.tokens[i]? = some b) :
      SameAt s t (c a.position) (c b.position)

theorem sameAt_endOfText (s t : TextStream) : SameAt s t endOfText endOfText :=
  .unplaced (by simp [Error.placed])

theorem sameAt_indexOutOfRange (s t : TextStream) (i n : Nat) :
    SameAt s t (indexOutOfRange i n) (indexOutOfRange i n) :=
  .unplaced (by simp [Error.placed])

end Error

namespace Update

variable {α β : Type}

theorem eq_ok {x : Update Unit} {s s' : Session}
    (h : (match x s with
      | .ok _ u => decide (u.input = s'.input) && decide (u.memory = s'.memory)
      | .error _ _ => false) = true) : x s = .ok () s' := by
  cases hx : x s with
  | ok a u =>
      simp only [hx, Bool.and_eq_true, decide_eq_true_eq] at h
      cases u
      cases s'
      obtain ⟨rfl, rfl⟩ := h
      rfl
  | error e u =>
      rw [hx] at h
      cases h

theorem lift_of_ok {p : Parser α} {s t : TextStream} {m : Memory} {a : α} (h : p s = .ok a t) :
    (liftM p : Update α) ⟨s, m⟩ = .ok a ⟨t, m⟩ := by
  change ofParser p ⟨s, m⟩ = _
  rw [ofParser, h]

theorem lift_of_error {p : Parser α} {s t : TextStream} {m : Memory} {e : Error}
    (h : p s = .error e t) : (liftM p : Update α) ⟨s, m⟩ = .error e ⟨t, m⟩ := by
  change ofParser p ⟨s, m⟩ = _
  rw [ofParser, h]

theorem lift_bind (p : Parser α) (f : α → Parser β) :
    (liftM (p >>= f) : Update β) = (liftM p : Update α) >>= fun a => liftM (f a) := by
  funext ⟨s, m⟩
  change ofParser (EStateM.bind p f) ⟨s, m⟩ = EStateM.bind (ofParser p) (fun a => ofParser (f a)) _
  cases hp : p s with
  | ok a t => simp only [ofParser, EStateM.bind, hp]
  | error e t => simp only [ofParser, EStateM.bind, hp]

/-- A reader that succeeds has consumed some number of tokens, at least `p`. -/
def Advances (p : Nat) (x : Update α) : Prop :=
  ∀ s m a s', x ⟨s, m⟩ = .ok a s' → ∃ n, p ≤ n ∧ s.Past n s'.input

section

variable {x : Update α} {f : α → Update β} {p q : Nat}

theorem Advances.mono (h : Advances p x) (hq : q ≤ p) : Advances q x := by
  intro s m a s' hx
  obtain ⟨n, hn, hs⟩ := h s m a s' hx
  exact ⟨n, Nat.le_trans hq hn, hs⟩

theorem advances_pure (a : α) : Advances 0 (pure a) := by
  intro s m b s' h
  cases h
  exact ⟨0, Nat.le_refl 0, past_zero s⟩

theorem advances_throw (e : Error) (p : Nat) : Advances p (throw e : Update α) := by
  intro s m b s' h
  cases h

theorem advances_get : Advances 0 (get : Update Session) := by
  intro s m b s' h
  cases h
  exact ⟨0, Nat.le_refl 0, past_zero s⟩

theorem advances_store (change : Memory → Except Error Memory) : Advances 0 (store change) := by
  intro s m a s' h
  rw [store] at h
  split at h
  · cases h
    exact ⟨0, Nat.le_refl 0, past_zero s⟩
  · cases h

theorem Advances.bind (hx : Advances p x) (hf : ∀ a, Advances q (f a)) :
    Advances (p + q) (x >>= f) := by
  intro s m b s'' h
  obtain ⟨a, ⟨s', m'⟩, hs, ht⟩ := bind_eq_ok_iff.1 h
  obtain ⟨n, hn, hp⟩ := hx s m a _ hs
  obtain ⟨k, hk, hq⟩ := hf a s' m' b s'' ht
  exact ⟨n + k, Nat.add_le_add hn hk, hp.trans hq⟩

theorem advances_token : Advances 1 (liftM Parser.token : Update Token) := by
  intro s m a s' h
  cases ha : s.tokens[0]? with
  | none =>
      rw [lift_of_error ((past_zero s).token_of_none ha)] at h
      cases h
  | some b =>
      obtain ⟨u, hu, hp, -⟩ := (past_zero s).token_of_some ha
      rw [lift_of_ok hu] at h
      cases h
      exact ⟨1, Nat.le_refl 1, hp⟩

theorem advances_token_bind {f : Token → Update α}
    (h : ∀ (s : TextStream) a u, s.Past 1 u → s.Past 0 a.start → ∀ m b s', f a ⟨u, m⟩ = .ok b s' →
      ∃ n, 1 ≤ n ∧ s.Past n s'.input) :
    Advances 1 ((liftM Parser.token : Update Token) >>= f) := by
  intro s m b s' hb
  cases ha : s.tokens[0]? with
  | none =>
      rw [bind_error (lift_of_error ((past_zero s).token_of_none ha))] at hb
      cases hb
  | some a =>
      obtain ⟨u, hu, hp, hstart⟩ := (past_zero s).token_of_some ha
      rw [bind_ok (lift_of_ok hu)] at hb
      exact h s a u hp hstart m b s' hb

theorem advances_consumeIf (text : String) :
    Advances 0 (liftM (Parser.consumeIf text) : Update Bool) := by
  intro s m a s' h
  obtain ⟨u, hc, hu, -⟩ | ⟨b, u, hc, hu, -⟩ := (past_zero s).consumeIf text
  · rw [lift_of_ok hc] at h
    cases h
    exact ⟨0, Nat.le_refl 0, hu⟩
  · rw [lift_of_ok hc] at h
    cases h
    exact ⟨1, Nat.zero_le 1, hu⟩

end

/-- What a reading of the text `t` has to come to after a reading of the text `s`. If the first
succeeds and the texts agree on what it has consumed and on `k` tokens more, the second yields the
same and consumes as many. If the first fails, the second fails alike where the texts agree
throughout. -/
def Follows (s t : TextStream) (k : Nat) :
    EStateM.Result Error Session α → EStateM.Result Error Session α → Prop
  | .ok a s', r => ∀ j, s.Past j s'.input → Agree s t (j + k) →
      ∃ t', r = .ok a ⟨t', s'.memory⟩ ∧ t.Past j t'
  | .error e s', r => words s.rest = words t.rest →
      ∃ e' t', r = .error e' ⟨t', s'.memory⟩ ∧ e.SameAt s t e'

theorem Follows.of_agree {s t : TextStream} {k j : Nat} {r r' : EStateM.Result Error Session α}
    (h : Agree s t j → Follows s t k r r')
    (hpast : ∀ a s', r = .ok a s' → ∃ n, j ≤ n ∧ s.Past n s'.input) : Follows s t k r r' := by
  cases r with
  | ok a s' =>
      intro n hn hagree
      obtain ⟨n', hle, hn'⟩ := hpast a s' rfl
      obtain rfl := hn'.inj hn
      exact h (hagree.mono (by omega)) _ hn hagree
  | error e s' => exact fun hw => h (agree_of_words_eq hw j) hw

/-- Two readers that go on in two texts from the token of index `i` in both, each in its own text,
do so side by side. -/
def Lockstep (s t : TextStream) (k i : Nat) (x y : Update α) : Prop :=
  ∀ u v m, s.Past i u → t.Past i v → Follows s t k (x ⟨u, m⟩) (y ⟨v, m⟩)

section

variable {s t : TextStream} {k l p i : Nat}

theorem lockstep_pure (a : α) : Lockstep s t k i (pure a) (pure a) := by
  intro u v m hu hv j hj _
  obtain rfl := hu.inj hj
  exact ⟨v, rfl, hv⟩

theorem lockstep_throw {e e' : Error} (h : e.SameAt s t e') :
    Lockstep s t k i (throw e : Update α) (throw e') :=
  fun _ v _ _ _ _ => ⟨e', v, rfl, h⟩

theorem lockstep_store {κ : Kind} (f : Field κ) (a : κ.Value) :
    Lockstep s t k i (store (f.tryWrite a)) (store (f.tryWrite a)) := by
  intro u v m hu hv
  simp only [store]
  cases hc : f.tryWrite a m with
  | ok m' =>
      intro j hj _
      obtain rfl := hu.inj hj
      exact ⟨v, rfl, hv⟩
  | error e =>
      obtain rfl | rfl := Field.tryWrite_eq_error hc
      · exact fun _ => ⟨_, v, rfl, .unplaced (by simp [Error.placed])⟩
      · exact fun _ => ⟨_, v, rfl, .unplaced (by simp [Error.placed])⟩

theorem lockstep_get_bind {f g : Session → Update α}
    (h : ∀ u v m, s.Past i u → t.Past i v → Lockstep s t k i (f ⟨u, m⟩) (g ⟨v, m⟩)) :
    Lockstep s t k i (get >>= f) (get >>= g) :=
  fun u v m hu hv => h u v m hu hv u v m hu hv

theorem Lockstep.bind {x y : Update α} {f g : α → Update β} (h : Lockstep s t k i x y)
    (hx : Advances p x) (hf : ∀ a, Advances k (f a))
    (hfg : ∀ a j, i + p ≤ j → Lockstep s t l j (f a) (g a)) :
    Lockstep s t l i (x >>= f) (y >>= g) := by
  intro u v m hu hv
  have hfirst := h u v m hu hv
  cases hxu : x ⟨u, m⟩ with
  | error e s' =>
      rw [hxu] at hfirst
      rw [bind_error hxu]
      intro hw
      obtain ⟨e', v', hy, he⟩ := hfirst hw
      exact ⟨e', v', bind_error hy, he⟩
  | ok a s' =>
      obtain ⟨u', m'⟩ := s'
      rw [hxu] at hfirst
      obtain ⟨n, hn, hpast⟩ := hx u m a _ hxu
      have hu' : s.Past (i + n) u' := hu.trans hpast
      rw [bind_ok hxu]
      refine Follows.of_agree (j := i + n + k) (fun hagree => ?_) fun b s'' hfu => ?_
      · obtain ⟨v', hy, hv'⟩ := hfirst _ hu' hagree
        rw [bind_ok hy]
        exact hfg a (i + n) (by omega) u' v' m' hu' hv'
      · obtain ⟨n', hn', hpast'⟩ := hf a u' m' b s'' hfu
        exact ⟨i + n + n', by omega, hu'.trans hpast'⟩

theorem lockstep_token_bind {f g : Token → Update α}
    (hf : Advances 1 ((liftM Parser.token : Update Token) >>= f))
    (h : ∀ a b, s.tokens[i]? = some a → t.tokens[i]? = some b → b.text = a.text →
      s.Past i a.start → t.Past i b.start → Lockstep s t k (i + 1) (f a) (g b)) :
    Lockstep s t k i ((liftM Parser.token : Update Token) >>= f)
      ((liftM Parser.token : Update Token) >>= g) := by
  intro u v m hu hv
  cases ha : s.tokens[i]? with
  | none =>
      rw [bind_error (lift_of_error (hu.token_of_none ha))]
      intro hw
      have hb := (agree_of_words_eq hw _).none (Nat.lt_succ_self i) ha
      exact ⟨_, _, bind_error (lift_of_error (hv.token_of_none hb)), Error.sameAt_endOfText s t⟩
  | some a =>
      obtain ⟨u', hua, hu', hau⟩ := hu.token_of_some ha
      have hrun := bind_ok (lift_of_ok (m := m) hua) f
      rw [hrun]
      refine Follows.of_agree (j := i + 1) (fun hagree => ?_) fun c s' hfu => ?_
      · obtain ⟨b, hb, hab⟩ := hagree.token (Nat.lt_succ_self i) ha
        obtain ⟨v', hvb, hv', hbv⟩ := hv.token_of_some hb
        rw [bind_ok (lift_of_ok hvb)]
        exact h a b ha hb hab hau hbv u' v' m hu' hv'
      · obtain ⟨n, hn, hpast⟩ := hf u m c s' (hrun.trans hfu)
        exact ⟨i + n, by omega, hu.trans hpast⟩

theorem lockstep_consumeIf (text : String) :
    Lockstep s t 1 i (liftM (Parser.consumeIf text) : Update Bool)
      (liftM (Parser.consumeIf text)) := by
  intro u v m hu hv
  obtain ⟨u', hc, hu', hne⟩ | ⟨a, u', hc, hu', ha, hat⟩ := hu.consumeIf text
  · rw [lift_of_ok hc]
    intro j hj hagree
    obtain rfl := hu'.inj hj
    obtain ⟨v', hd, hv', -⟩ | ⟨b, v', -, -, hb, hbt⟩ := hv.consumeIf text
    · exact ⟨v', lift_of_ok hd, hv'⟩
    · -- the token would be there in the first text as well
      obtain ⟨a, ha, hab⟩ := Agree.token (s := t) (t := s) hagree.symm (Nat.lt_succ_self i) hb
      exact absurd (hab.trans hbt) (hne a ha)
  · rw [lift_of_ok hc]
    intro j hj hagree
    obtain rfl := hu'.inj hj
    obtain ⟨b, hb, hab⟩ := hagree.token (by omega) ha
    obtain ⟨v', -, -, hne⟩ | ⟨_, v', hd, hv', -⟩ := hv.consumeIf text
    · exact absurd (hab.trans hat) (hne b hb)
    · exact ⟨v', lift_of_ok hd, hv'⟩

theorem lockstep_unread_bind {a b : Token} {x y : Update α} (ha : s.Past i a.start)
    (hb : t.Past i b.start) (h : Lockstep s t k i x y) :
    Lockstep s t k l ((liftM (Parser.unread a) : Update Unit) >>= fun _ => x)
      ((liftM (Parser.unread b) : Update Unit) >>= fun _ => y) := by
  intro u v m _ _
  have hu : Parser.unread a u = .ok () a.start := rfl
  have hv : Parser.unread b v = .ok () b.start := rfl
  rw [bind_ok (lift_of_ok hu), bind_ok (lift_of_ok hv)]
  exact h _ _ m ha hb

end

/-- A reader depends on nothing but the tokens of its text and memory, and takes at least `p`
tokens. -/
structure TokenDriven (p : Nat) (x : Update α) : Prop where
  advances : Advances p x
  lockstep : ∀ s t i, Lockstep s t 0 i x x

theorem tokenDriven_pure (a : α) : TokenDriven 0 (pure a) :=
  ⟨advances_pure a, fun _ _ _ => lockstep_pure a⟩

theorem TokenDriven.mono {p q : Nat} {x : Update α} (h : TokenDriven p x) (hq : q ≤ p) :
    TokenDriven q x :=
  ⟨h.advances.mono hq, h.lockstep⟩

theorem tokenDriven_store {κ : Kind} (f : Field κ) (a : κ.Value) :
    TokenDriven 0 (store (f.tryWrite a)) :=
  ⟨advances_store _, fun _ _ _ => lockstep_store f a⟩

theorem TokenDriven.bind {p q : Nat} {x : Update α} {f : α → Update β} (h : TokenDriven p x)
    (hf : ∀ a, TokenDriven q (f a)) : TokenDriven (p + q) (x >>= f) where
  advances := h.advances.bind fun a => (hf a).advances
  lockstep s t i := (h.lockstep s t i).bind h.advances
    (fun a => (hf a).advances.mono (Nat.zero_le q)) fun a j _ => (hf a).lockstep s t j

end Update

namespace Kind

def value? : (k : Kind) → String → Option k.Value
  | .unsigned, text => (Numeral.parse? text).bind Numeral.toNat?
  | .signed, text => (Numeral.parse? text).bind Numeral.toInt?
  | .decimal, text => (Numeral.parse? text).bind Numeral.toNat?
  | .flag, text => if text = "true" then some true else if text = "false" then some false else none
  | .float f, text => f.parse? text
  | .named e, text =>
      if isNumeric text then (Numeral.parse? text).bind (integer? e.host.signed)
      else e.valueOf? text

def mistake : Kind → String → Nat → Error
  | .flag, _ => .unknownName
  | .named _, text => if isNumeric text then .invalidNumber else .unknownName
  | _, _ => .invalidNumber

theorem parser_eq (k : Kind) : k.parser = (do
    let a ← Parser.token
    match k.value? a.text with
    | some v => pure v
    | none => throw (k.mistake a.text a.position)) := by
  cases k with
  | unsigned | signed | decimal | float =>
      refine bind_congr fun a => ?_
      simp only [value?, mistake]
      split <;> rename_i h <;> rw [h]
  | flag =>
      refine bind_congr fun a => ?_
      simp only [value?, mistake]
      split
      · rfl
      · split <;> rfl
  | named e =>
      refine bind_congr fun a => ?_
      simp only [value?, mistake]
      split
      · split <;> rename_i h <;> rw [h]
      · split <;> rename_i h <;> rw [h]

theorem mistake_eq (k : Kind) (text : String) :
    k.mistake text = .invalidNumber ∨ k.mistake text = .unknownName := by
  cases k with
  | flag => exact .inr rfl
  | named e =>
      rw [mistake]
      split
      · exact .inl rfl
      · exact .inr rfl
  | unsigned | signed | decimal | float => exact .inl rfl

theorem mistake_mem (k : Kind) (text : String) : k.mistake text ∈ Error.placed := by
  obtain h | h := k.mistake_eq text <;> rw [h] <;> simp [Error.placed]

end Kind

namespace Parser

open Update

variable {α : Type}

def Judges (f : Token → Parser α) : Prop :=
  ∀ w : String, (∃ v, ∀ a : Token, a.text = w → f a = pure v) ∨
    ∃ c ∈ Error.placed, ∀ a : Token, a.text = w → f a = throw (c a.position)

theorem tokenDriven_of_judges {f : Token → Parser α} (h : Judges f) :
    TokenDriven 1 (liftM (token >>= f) : Update α) := by
  have hf : ∀ a, Advances 0 (liftM (f a) : Update α) := by
    intro a
    obtain ⟨v, hv⟩ | ⟨c, -, hc⟩ := h a.text
    · rw [hv a rfl]
      exact advances_pure v
    · rw [hc a rfl]
      exact advances_throw _ 0
  rw [lift_bind]
  refine ⟨advances_token.bind hf, fun s t i => ?_⟩
  refine lockstep_token_bind (advances_token.bind hf) fun a b ha hb hab _ _ => ?_
  obtain ⟨v, hv⟩ | ⟨c, hc, he⟩ := h a.text
  · rw [hv a rfl, hv b hab]
    exact lockstep_pure v
  · rw [he a rfl, he b hab]
    exact lockstep_throw (.placed hc ha hb)

theorem judges_expect (text : String) : Judges fun found =>
    if found.text = text then pure () else throw (.unexpectedToken found.position) := by
  intro w
  by_cases hw : w = text
  · exact .inl ⟨(), fun a ha => if_pos (ha.trans hw)⟩
  · exact .inr ⟨.unexpectedToken, by simp [Error.placed], fun a ha => if_neg (by rwa [ha])⟩

theorem tokenDriven_expect (text : String) : TokenDriven 1 (liftM (expect text) : Update Unit) :=
  tokenDriven_of_judges (judges_expect text)

theorem judges_of_read {f : Token → Parser α} (read : String → Option α)
    {c : String → Nat → Error} (hc : ∀ w, c w ∈ Error.placed)
    (hsome : ∀ a v, read a.text = some v → f a = pure v)
    (hnone : ∀ a, read a.text = none → f a = throw (c a.text a.position)) : Judges f := by
  intro w
  cases hw : read w with
  | some v => exact .inl ⟨v, fun a ha => hsome a v (by rw [ha, hw])⟩
  | none => exact .inr ⟨c w, hc w, fun a ha => by rw [hnone a (by rw [ha, hw]), ha]⟩

theorem tokenDriven_numeral (accept : Numeral → Option α) :
    TokenDriven 1 (liftM (numeral accept) : Update α) :=
  tokenDriven_of_judges (judges_of_read (fun w => (Numeral.parse? w).bind accept)
    (c := fun _ => .invalidNumber) (fun _ => by simp [Error.placed])
    (fun a v h => by simp only [h]) fun a h => by simp only [h])

theorem tokenDriven_kind (k : Kind) : TokenDriven 1 (liftM k.parser : Update k.Value) := by
  rw [k.parser_eq]
  exact tokenDriven_of_judges (judges_of_read k.value? k.mistake_mem
    (fun a v h => by simp only [h]) fun a h => by simp only [h])

end Parser

end Packed
