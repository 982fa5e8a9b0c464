import MagneticBearing.Main
import MagneticBearing.Proofs.Completeness
import MagneticBearing.Proofs.RatingSearch
import MagneticBearing.Proofs.Symmetry
import MagneticBearing.Proofs.Fold
import MagneticBearing.Proofs.Deliverable
import MagneticBearing.Proofs.Scaling
import MagneticBearing.Proofs.Overlay
import MagneticBearing.Proofs.Report
import MagneticBearing.Proofs.Latency
import MagneticBearing.Proofs.SaturationCheck
import MagneticBearing.Proofs.OperatedQueue
import MagneticBearing.Proofs.Unpowered
import MagneticBearing.Proofs.Minimize
import MagneticBearing.Proofs.Secant
import MagneticBearing.Proofs.Merging
import MagneticBearing.Proofs.RatingFailure
import MagneticBearing.Proofs.Dump
import MagneticBearing.Proofs.Inverter
import MagneticBearing.Proofs.AppliedForce
import MagneticBearing.Proofs.Building
import MagneticBearing.Proofs.FirstFault
import MagneticBearing.Proofs.LogRows
import MagneticBearing.Proofs.PoleForce
import MagneticBearing.Proofs.Headroom
import MagneticBearing.Proofs.Remainder
import MagneticBearing.Proofs.Readings
import MagneticBearing.Proofs.Balanced
import MagneticBearing.Proofs.Turns
