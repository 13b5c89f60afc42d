import DfVrf.Crypto.Deterministic

/-!
# The binding of the C code (`falcon.go`)

Errors are the messages of the Go code, with the wrapped error behind the colon.
-/

namespace DfVrf.Go

open Crypto

def errPubkeyCoefficientsFail : String := "falcon pubkey coefficients failed"

/-- The error with the return code of a call of the C code. -/
def errorCode (r : ℤ) (err : String) : String := "error code " ++ toString r ++ ": " ++ err

/-- `Coefficients`. -/
def coefficients (pub : ByteVec 897) : Except String (List UInt16) :=
  match pubkeyCoeffs pub with
  | .error r => .error (errorCode r errPubkeyCoefficientsFail)
  | .ok h => .ok h

/-- `NTTCoefficients`. -/
def nttCoefficients (pub : ByteVec 897) : Except String (List UInt16) :=
  match coefficients pub with
  | .error err => .error err
  | .ok h => .ok (mqNtt h det512Logn)

private theorem coefficients_eq_ok {pub : ByteVec 897} {h : List UInt16} :
    coefficients pub = .ok h ↔ pubkeyCoeffs pub = .ok h := by
  unfold coefficients
  cases pubkeyCoeffs pub with
  | error r => simp
  | ok h' => simp

theorem nttCoefficients_eq_ok {pub : ByteVec 897} {h : List UInt16} (hd : pubkeyCoeffs pub = .ok h) :
    nttCoefficients pub = .ok (mqNtt h 9) := by
  rw [nttCoefficients, coefficients_eq_ok.2 hd]
  rfl

end DfVrf.Go
