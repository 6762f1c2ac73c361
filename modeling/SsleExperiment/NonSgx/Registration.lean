import SsleExperiment.App.Registration

/-! # Which strings are safe to register

The two programs have the same `registration`, with a colon and with a comma for
its delimiter. It returns for the strings that have a second field and whose
positions are `int`s; the empty string and a lone field with its delimiter are
read past the end of the fields. Longer strings without a delimiter are registered
for some lengths, and for others the positions overflow or the loop does not end
(`Ssle.NonSgx.registration_defined_iff`).
-/

namespace Ssle.NonSgx

open App

/-- `registration` of `ssle_node.cpp`. -/
def registration (str : Str) : Except Fault Node := registrationBy ',' str

end Ssle.NonSgx
