import Soketto.Base

/-!
# Payload storage and extensions

The model of `src/extension.rs` and of `Storage` in `src/lib.rs`. An extension is a type with the
trait's methods; a connection works with a list of them, which a sum type makes heterogeneous.

* `Extension.decodeAll`, `Extension.encodeAll`: the loops over all extensions of a connection,
  which stop at the first error and keep the state of the extensions already run.
* `Extension.Always`: what holds of an extension however it is configured with certain parameters.
-/

set_option autoImplicit false

namespace Soketto

/-- A buffer type used for implementing extensions. -/
inductive Storage where
  | shared (bs : List UInt8)
  | unique (bs : List UInt8)
  | owned (bs : List UInt8)
  deriving DecidableEq, Repr

/-- The stored bytes. -/
def Storage.asRef : Storage → List UInt8
  | shared bs | unique bs | owned bs => bs

/-- Errors of extensions, known by their text. -/
structure BoxedError where
  message : String
  deriving DecidableEq, Repr

/-- Extension parameter (used for negotiation). -/
structure Param where
  name : String
  value : Option String
  deriving DecidableEq, Repr

/-- A new parameter with the given name. -/
def Param.new (name : String) : Param := ⟨name, none⟩

/-- Set the parameter to the given value. -/
def Param.setValue (p : Param) (value : Option String) : Param := { p with value }

/-- What `decode` leaves: its result, the extension, the header and the accumulated payload. -/
structure Decoded (E : Type) where
  result : Except BoxedError Unit
  ext : E
  header : Header
  data : List UInt8

/-- What `encode` leaves: its result, the extension, the header and the payload. -/
structure Encoded (E : Type) where
  result : Except BoxedError Unit
  ext : E
  header : Header
  data : Storage

/-- A websocket extension as per RFC 6455, section 9. An `encode` that does not return is `none`. -/
class Extension (E : Type) where
  isEnabled : E → Bool
  name : E → String
  params : E → List Param
  configure : E → List Param → Except BoxedError Unit × E
  encode : E → Header → Storage → Option (Encoded E)
  decode : E → Header → List UInt8 → Decoded E
  reservedBits : E → Bool × Bool × Bool := fun _ => (false, false, false)

namespace Extension

variable {E : Type} [Extension E]

/-- Decode a frame with every extension in turn. -/
def decodeAll : List E → Header → List UInt8 → Decoded (List E)
  | [], header, data => ⟨.ok (), [], header, data⟩
  | e :: es, header, data =>
    let d := decode e header data
    match d.result with
    | .error x => ⟨.error x, d.ext :: es, d.header, d.data⟩
    | .ok () =>
      let r := decodeAll es d.header d.data
      { r with ext := d.ext :: r.ext }

/-- Encode a frame with every extension in turn. -/
def encodeAll : List E → Header → Storage → Option (Encoded (List E))
  | [], header, data => some ⟨.ok (), [], header, data⟩
  | e :: es, header, data =>
    match encode e header data with
    | none => none
    | some d =>
      match d.result with
      | .error x => some ⟨.error x, d.ext :: es, d.header, d.data⟩
      | .ok () => (encodeAll es d.header d.data).map fun r => { r with ext := d.ext :: r.ext }

/-- The extension after it was configured with parameters one after the other. -/
def configured (e : E) (pss : List (List Param)) : E :=
  pss.foldl (fun e ps => (configure e ps).2) e

/-- However the extension is configured with parameters of the kind `D`, `p` holds of it. -/
def Always (D : List Param → Prop) (p : E → Prop) (e : E) : Prop :=
  ∀ pss, (∀ ps ∈ pss, D ps) → p (configured e pss)

variable {D : List Param → Prop} {p : E → Prop} {e : E}

theorem Always.now (h : Always D p e) : p e := h [] nofun

theorem Always.configure (h : Always D p e) {ps : List Param} (hps : D ps) :
    Always D p (Extension.configure e ps).2 :=
  fun pss hpss => h (ps :: pss) (List.forall_mem_cons.mpr ⟨hps, hpss⟩)

theorem Always.imp {q : E → Prop} (h : Always D p e) (hpq : ∀ {e}, p e → q e) : Always D q e :=
  fun pss hpss => hpq (h pss hpss)

/-- An invariant of the extension holds of it however it is configured. -/
theorem always_of_step (hstep : ∀ e, p e → ∀ ps, D ps → p (Extension.configure e ps).2) (he : p e) :
    Always D p e := by
  intro pss hpss
  induction pss generalizing e with
  | nil => exact he
  | cons ps pss ih =>
    obtain ⟨hps, hpss⟩ := List.forall_mem_cons.mp hpss
    exact ih (hstep e he ps hps) hpss

end Extension

/-- No extension at all. -/
instance : Extension Empty where
  isEnabled := nofun
  name := nofun
  params := nofun
  configure := nofun
  encode := nofun
  decode := nofun

/-- Extensions of two types in one list. -/
instance {A B : Type} [Extension A] [Extension B] : Extension (A ⊕ B) where
  isEnabled := Sum.elim Extension.isEnabled Extension.isEnabled
  name := Sum.elim Extension.name Extension.name
  params := Sum.elim Extension.params Extension.params
  configure := fun
    | .inl a, ps => (Extension.configure a ps).map id .inl
    | .inr b, ps => (Extension.configure b ps).map id .inr
  encode := fun
    | .inl a, header, data => (Extension.encode a header data).map fun x =>
      ⟨x.result, .inl x.ext, x.header, x.data⟩
    | .inr b, header, data => (Extension.encode b header data).map fun x =>
      ⟨x.result, .inr x.ext, x.header, x.data⟩
  decode := fun
    | .inl a, header, data =>
      let x := Extension.decode a header data
      ⟨x.result, .inl x.ext, x.header, x.data⟩
    | .inr b, header, data =>
      let x := Extension.decode b header data
      ⟨x.result, .inr x.ext, x.header, x.data⟩
  reservedBits := Sum.elim Extension.reservedBits Extension.reservedBits

end Soketto
