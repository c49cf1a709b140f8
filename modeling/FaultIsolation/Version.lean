/-!
The version of the library.
-/
namespace FaultIsolation

def version : String := "0.1.0"

end FaultIsolation
